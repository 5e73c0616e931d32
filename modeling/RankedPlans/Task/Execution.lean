import RankedPlans.Task.Validation

/-!
Tasks as transition systems. An operator is named by its index; a plan is a list of such indices,
and `Task.planCost?` follows it from the initial state.
-/

namespace RankedPlans

/-- Operator indices in the order of their application. -/
abbrev Plan := List Nat

namespace Task

/-- The operator of an index; an index without operator has the empty one. -/
def operator (t : Task) (op : Nat) : Operator :=
  t.operators.getD op default

/-- Whether every fact of the goal holds. -/
def isGoal (t : Task) (s : State) : Bool :=
  t.goal.all (·.holds s)

/-- The operators that may be applied, in ascending order. -/
def applicable (t : Task) (s : State) : List Nat :=
  t.operators.size.foldRev
    (fun op _ ops => if t.operators[op].applicable s then op :: ops else ops) []

theorem foldRev_cons_eq_filter (n : Nat) (p : (i : Nat) → i < n → Bool) (q : Nat → Bool)
    (h : ∀ i hi, p i hi = q i) (l : List Nat) :
    n.foldRev (fun i hi l => if p i hi then i :: l else l) l = (List.range n).filter q ++ l := by
  induction n generalizing l with
  | zero => rfl
  | succ n ih =>
    rw [Nat.foldRev_succ, ih (fun i hi => p i (by omega)) (fun i hi => h i _), List.range_succ, h]
    cases hq : q n <;> simp [hq]

theorem applicable_eq_filter (t : Task) (s : State) :
    t.applicable s = (List.range t.operators.size).filter fun op => (t.operator op).applicable s := by
  rw [applicable, foldRev_cons_eq_filter _ _ (fun op => (t.operator op).applicable s)
    (fun i hi => by simp [operator, Array.getD_eq_getD_getElem?, hi])]
  exact List.append_nil _

/-- The state after an operator. -/
def apply (t : Task) (s : State) (op : Nat) : State :=
  (t.operator op).apply s

/-- The least cost of an operator, or zero if there is none. -/
def minOperatorCost (t : Task) : Int :=
  t.operators.foldl (fun least o => min least o.cost) (t.operator 0).cost

/-- The state that a plan leads to and its cost, if each operator exists and is applicable. -/
def run? (t : Task) : State → Plan → Option (State × Int)
  | s, [] => some (s, 0)
  | s, op :: rest =>
    if op < t.operators.size ∧ (t.operator op).applicable s = true then
      (t.run? (t.apply s op) rest).map fun (final, cost) => (final, (t.operator op).cost + cost)
    else none

/-- The cost of a plan that leads from the initial state to a goal. -/
def planCost? (t : Task) (plan : Plan) : Option Int :=
  match t.run? t.initial plan with
  | some (final, cost) => if t.isGoal final then some cost else none
  | none => none

/-- The names of the operators of a plan. -/
def actions (t : Task) (plan : Plan) : List String :=
  plan.map fun op => (t.operator op).name

/-- The state as `variable=value` pairs; a value without a name is a question mark. -/
def describe (t : Task) (s : State) : String :=
  ", ".intercalate <| (t.vars.toList.zip s.toList).map fun (v, value) =>
    v.name ++ "=" ++ v.values.getD value "?"

/-- The index of the first value of each variable when the values of all variables are numbered
through, followed by their total. -/
def valueOffsets (t : Task) : Array Nat :=
  t.vars.foldl (fun offsets v => offsets.push (offsets.back?.getD 0 + v.values.length)) #[0]

end Task

end RankedPlans
