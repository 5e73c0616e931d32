import RankedPlans.Sorting

/-!
Grounded planning tasks in finite-domain form. A state gives every variable a value; an operator may
be applied where its preconditions hold, and then sets the variables of its effects. `Draft` is a task
as it is written down. `Task.ofDraft` in `RankedPlans.Task.Validation` admits the sound ones.
-/

namespace RankedPlans

/-- A variable and the names of its values. -/
structure Variable where
  name : String
  values : List String
deriving DecidableEq, Repr, Inhabited

/-- The assignment of a value to a variable. -/
structure Fact where
  var : Nat
  value : Nat
deriving DecidableEq, Repr, Inhabited

/-- The value of each variable, in order. States are compared lexicographically. -/
abbrev State := Array Nat

namespace Fact

/-- Facts are ordered by variable, then by value. -/
def le (a b : Fact) : Bool :=
  a.var < b.var || (a.var == b.var && a.value ≤ b.value)

/-- The facts in ascending order. -/
def sort (facts : List Fact) : List Fact :=
  sortBy le facts

theorem le_trans (a b c : Fact) (hab : le a b = true) (hbc : le b c = true) : le a c = true := by
  simp only [le, Bool.or_eq_true, Bool.and_eq_true, decide_eq_true_eq, beq_iff_eq] at *
  omega

theorem le_total (a b : Fact) : le a b = true ∨ le b a = true := by
  simp only [le, Bool.or_eq_true, Bool.and_eq_true, decide_eq_true_eq, beq_iff_eq]
  omega

theorem le_antisymm (a b : Fact) (hab : le a b = true) (hba : le b a = true) : a = b := by
  simp only [le, Bool.or_eq_true, Bool.and_eq_true, decide_eq_true_eq, beq_iff_eq] at hab hba
  obtain ⟨var, value⟩ := a
  exact congr (congrArg Fact.mk (by simp only at hab hba; omega)) (by simp only at hab hba; omega)

theorem sort_sort (facts : List Fact) : sort (sort facts) = sort facts :=
  sortBy_eq_self (sortBy_pairwise le_trans le_total facts)

/-- Whether a state gives the variable this value. -/
def holds (f : Fact) (s : State) : Bool :=
  s[f.var]?.any (· == f.value)

end Fact

/-- An action with a cost, the facts that it needs and the facts that it makes true. -/
structure Operator where
  name : String
  cost : Int
  preconditions : List Fact
  effects : List Fact
deriving DecidableEq, Repr, Inhabited

namespace Operator

/-- The same operator with its facts in ascending order. -/
def normalize (o : Operator) : Operator :=
  { o with preconditions := Fact.sort o.preconditions, effects := Fact.sort o.effects }

@[simp] theorem normalize_normalize (o : Operator) : o.normalize.normalize = o.normalize := by
  simp [normalize, Fact.sort_sort]

/-- Whether every precondition holds. -/
def applicable (o : Operator) (s : State) : Bool :=
  o.preconditions.all (·.holds s)

/-- The state after the effects. Preconditions are not looked at. -/
def apply (o : Operator) (s : State) : State :=
  o.effects.foldl (fun s f => s.setIfInBounds f.var f.value) s

end Operator

/-- A task before validation. -/
structure Draft where
  vars : Array Variable
  operators : Array Operator
  initial : State
  goal : List Fact
deriving DecidableEq, Repr, Inhabited

namespace Draft

/-- The same task with every list of facts in ascending order. -/
def normalize (d : Draft) : Draft :=
  { d with operators := d.operators.map Operator.normalize, goal := Fact.sort d.goal }

@[simp] theorem normalize_normalize (d : Draft) : d.normalize.normalize = d.normalize := by
  simp [normalize, Fact.sort_sort, Function.comp_def]

end Draft

end RankedPlans
