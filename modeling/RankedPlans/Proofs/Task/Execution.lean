import RankedPlans.Proofs.Task.Validation
import RankedPlans.Task.Execution

/-! Runs of operators from a state, and what they cost. -/

namespace RankedPlans.Task

variable {t : Task} {s s' : State} {op : Nat} {plan rest : Plan} {cost : Int}

theorem operator_eq {op : Nat} (h : op < t.operators.size) : t.operator op = t.operators[op] := by
  simp [operator, h]

theorem operator_cost_nonneg (t : Task) (op : Nat) : 0 ≤ (t.operator op).cost := by
  by_cases h : op < t.operators.size
  · rw [operator_eq h]
    exact t.valid.cost _ (Array.getElem_mem h)
  · rw [operator, Array.getD_eq_getD_getElem?, Array.getElem?_eq_none (by omega)]
    exact Int.le_refl 0

theorem operators_size_le (t : Task) : t.operators.size ≤ Draft.countLimit :=
  t.countable.operators

theorem mem_applicable_iff :
    op ∈ t.applicable s ↔ op < t.operators.size ∧ (t.operator op).applicable s = true := by
  rw [applicable_eq_filter, List.mem_filter, List.mem_range]

theorem nodup_applicable (t : Task) (s : State) : (t.applicable s).Nodup := by
  rw [applicable_eq_filter]
  exact List.nodup_range.filter _

theorem run?_cons_eq_some_iff : t.run? s (op :: rest) = some (s', cost) ↔
    op ∈ t.applicable s ∧ ∃ left, t.run? (t.apply s op) rest = some (s', left) ∧
      cost = (t.operator op).cost + left := by
  rw [mem_applicable_iff, run?]
  split
  · rename_i h
    simp only [Option.map_eq_some_iff, Prod.mk.injEq, Prod.exists, h, true_and, and_true]
    constructor
    · rintro ⟨_, left, hrun, rfl, rfl⟩
      exact ⟨left, hrun, rfl⟩
    · rintro ⟨left, hrun, rfl⟩
      exact ⟨_, left, hrun, rfl, rfl⟩
  · rename_i h
    simp [h]

theorem run?_append (h : t.run? s plan = some (s', cost)) (rest : Plan) :
    t.run? s (plan ++ rest) = (t.run? s' rest).map fun (final, left) => (final, cost + left) := by
  induction plan generalizing s cost with
  | nil =>
    obtain ⟨rfl, rfl⟩ := Prod.mk.inj (Option.some.inj h)
    simp
  | cons op plan ih =>
    obtain ⟨hop, left, hrun, rfl⟩ := run?_cons_eq_some_iff.mp h
    rw [List.cons_append, run?, if_pos (mem_applicable_iff.mp hop), ih hrun]
    cases t.run? s' rest <;> simp [Int.add_assoc]

theorem run?_concat (h : t.run? s plan = some (s', cost)) (hop : op ∈ t.applicable s') :
    t.run? s (plan ++ [op]) = some (t.apply s' op, cost + (t.operator op).cost) := by
  rw [run?_append h, run?_cons_eq_some_iff.mpr ⟨hop, 0, rfl, (Int.add_zero _).symm⟩]
  rfl

/-- A run takes its last operator in a state that it has come to. -/
theorem exists_run?_of_concat (h : t.run? s (plan ++ [op]) = some (s', cost)) :
    ∃ y past, t.run? s plan = some (y, past) ∧ op ∈ t.applicable y ∧ s' = t.apply y op := by
  induction plan generalizing s cost with
  | nil =>
    obtain ⟨hop, left, hleft, -⟩ := run?_cons_eq_some_iff.mp h
    obtain ⟨rfl, -⟩ := Prod.mk.inj (Option.some.inj hleft)
    exact ⟨s, 0, rfl, hop, rfl⟩
  | cons first plan ih =>
    obtain ⟨hfirst, left, hleft, -⟩ := run?_cons_eq_some_iff.mp h
    obtain ⟨y, past, hrun, hop, rfl⟩ := ih hleft
    exact ⟨y, _, run?_cons_eq_some_iff.mpr ⟨hfirst, past, hrun, rfl⟩, hop, rfl⟩

theorem run?_cost_nonneg (h : t.run? s plan = some (s', cost)) : 0 ≤ cost := by
  induction plan generalizing s cost with
  | nil =>
    obtain ⟨-, rfl⟩ := Prod.mk.inj (Option.some.inj h)
    exact Int.le_refl 0
  | cons op plan ih =>
    obtain ⟨-, left, hrun, rfl⟩ := run?_cons_eq_some_iff.mp h
    have := ih hrun
    have := t.operator_cost_nonneg op
    omega

/-- The states in which the operators of a plan are applied. -/
def visited (t : Task) : State → Plan → List State
  | _, [] => []
  | s, op :: rest => s :: t.visited (t.apply s op) rest

theorem visited_concat (h : t.run? s plan = some (s', cost)) (op : Nat) :
    t.visited s (plan ++ [op]) = t.visited s plan ++ [s'] := by
  induction plan generalizing s cost with
  | nil =>
    obtain ⟨rfl, -⟩ := Prod.mk.inj (Option.some.inj h)
    rfl
  | cons other plan ih =>
    obtain ⟨-, left, hrun, -⟩ := run?_cons_eq_some_iff.mp h
    rw [List.cons_append, visited, visited, ih hrun, List.cons_append]

theorem planCost?_eq_some_iff : t.planCost? plan = some cost ↔
    ∃ final, t.run? t.initial plan = some (final, cost) ∧ t.isGoal final = true := by
  unfold planCost?
  cases hrun : t.run? t.initial plan with
  | none => simp
  | some r =>
    obtain ⟨final, total⟩ := r
    simp only [Option.ite_none_right_eq_some, Option.some.injEq, Prod.mk.injEq]
    constructor
    · rintro ⟨hgoal, rfl⟩
      exact ⟨final, ⟨rfl, rfl⟩, hgoal⟩
    · rintro ⟨_, ⟨rfl, rfl⟩, hgoal⟩
      exact ⟨hgoal, rfl⟩

end RankedPlans.Task
