import RankedPlans.Pattern.Matching
import RankedPlans.Sorting
import RankedPlans.Task.Execution

/-!
Keys that say which plans count as the same: the sequence of operators, the operators in any order, or
the sequence of some operators with the others in any order.
-/

namespace RankedPlans

inductive PlanKey where
  /-- The order of all operators counts. -/
  | ordered
  /-- The order of no operator counts. -/
  | unordered
  /-- The order of the marked operators counts. -/
  | preserving (marked : Array Bool)
deriving DecidableEq, Repr

namespace PlanKey

/-- The key for a task. A pattern marks operators by their names and counts only if plans are
ordered. -/
def ofTask (t : Task) (unordered : Bool) (preserved : Option Pattern) : PlanKey :=
  if unordered then .unordered
  else
    match preserved with
    | none => .ordered
    | some p => .preserving (t.operators.map fun o => p.matchesWithin o.name)

/-- Stands between the marked operators and the others and is no operator itself. -/
def separator : Nat := nat32Max

/-- Operators in ascending order. -/
def sortOperators (ops : List Nat) : List Nat :=
  sortBy (fun a b => a ≤ b) ops

/-- The key of a plan. -/
def encode : PlanKey → Plan → List Nat
  | ordered, plan => plan
  | unordered, plan => sortOperators plan
  | preserving marked, plan =>
    let isMarked := fun op => marked.getD op false
    plan.filter isMarked ++ separator :: sortOperators (plan.filter (!isMarked ·))

end PlanKey

end RankedPlans
