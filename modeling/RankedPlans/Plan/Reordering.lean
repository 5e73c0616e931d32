import RankedPlans.Task.Execution
import RankedPlans.Sorting

/-!
Reorderings of a plan: other orders of the same operators that are applicable and end in a goal. They
are found depth first in lexicographic order, within a budget of visited beginnings.
-/

namespace RankedPlans

/-- How far a walk over the beginnings of reorderings is allowed to go. -/
structure ReorderingLimits where
  /-- How many beginnings may be visited. -/
  nodes : Nat
  /-- How many reorderings are wanted. -/
  count : Option Nat
deriving DecidableEq, Repr

/-- Operators in ascending order, each with how often it is still to come. -/
abbrev Remaining := List (Nat × Nat)

namespace Remaining

/-- One more time for an operator that precedes all others. -/
def add (op : Nat) : Remaining → Remaining
  | (other, n) :: rest => if op = other then (op, n + 1) :: rest else (op, 1) :: (other, n) :: rest
  | [] => [(op, 1)]

/-- The operators of a plan. -/
def ofPlan (plan : Plan) : Remaining :=
  (sortBy (fun a b => a ≤ b) plan).foldr add []

/-- One time less for an operator. -/
def take (op : Nat) : Remaining → Remaining
  | [] => []
  | (other, n) :: rest =>
    if op = other then if n ≤ 1 then rest else (op, n - 1) :: rest else (other, n) :: take op rest

end Remaining

/-- A walk over the beginnings of reorderings. -/
structure ReorderingWalk where
  visited : Nat := 0
  found : Array Plan := #[]
  stopped : Bool := false
deriving DecidableEq, Repr

namespace ReorderingWalk

/-- Takes a complete order, unless it is the plan itself or misses the goal. -/
def finish (t : Task) (plan : Plan) (limits : ReorderingLimits) (order : Plan) (s : State)
    (w : ReorderingWalk) : ReorderingWalk :=
  let found := if t.isGoal s && order != plan then w.found.push order else w.found
  { w with found, stopped := limits.count.any (· ≤ found.size) }

/-- Visits a beginning, given from its end, and all that extends it by the remaining operators. -/
def extend (t : Task) (plan : Plan) (limits : ReorderingLimits) :
    Nat → Remaining → List Nat → State → ReorderingWalk → ReorderingWalk
  | left, remaining, beginning, s, w =>
    if w.stopped then w
    else if limits.nodes ≤ w.visited then { w with stopped := true }
    else
      let w := { w with visited := w.visited + 1 }
      match left with
      | 0 => w.finish t plan limits beginning.reverse s
      | left + 1 =>
        remaining.foldl (fun w (op, _) =>
          if (t.operator op).applicable s then
            extend t plan limits left (remaining.take op) (op :: beginning) (t.apply s op) w
          else w) w

end ReorderingWalk

namespace Task

/-- The reorderings of a plan that are found within the limits. -/
def reorderings (t : Task) (limits : ReorderingLimits) (plan : Plan) : List Plan :=
  if limits.count = some 0 ∨ plan.length < 2 then []
  else
    (ReorderingWalk.extend t plan limits plan.length (.ofPlan plan) [] t.initial {}).found.toList

end Task

end RankedPlans
