import RankedPlans.Heuristic.Basic
import RankedPlans.Proofs.Task.State

/-! Estimates that never exceed the cost that is left. -/

namespace RankedPlans.Heuristic

/-- From a state that the task can come to, no way to a goal costs less than the estimate, and there is
none from a dead end. -/
def Admissible (h : Heuristic) (t : Task) : Prop :=
  ∀ ⦃before plan : Plan⦄ ⦃x final : State⦄ ⦃past cost : Int⦄,
    t.run? t.initial before = some (x, past) → t.run? x plan = some (final, cost) →
    t.isGoal final = true → ∃ e, h.estimate t x = .value e ∧ e ≤ cost

/-- The same from every state of the task, whether it can be come to or not. -/
def AdmissibleOnStates (h : Heuristic) (t : Task) : Prop :=
  ∀ ⦃plan : Plan⦄ ⦃x final : State⦄ ⦃cost : Int⦄, t.IsState x →
    t.run? x plan = some (final, cost) → t.isGoal final = true →
    ∃ e, h.estimate t x = .value e ∧ e ≤ cost

/-- No estimate is below zero. -/
def Nonnegative (h : Heuristic) (t : Task) : Prop :=
  ∀ ⦃x : State⦄ ⦃e : Int⦄, t.IsState x → h.estimate t x = .value e → 0 ≤ e

/-- From a dead end there is no way to a goal. -/
def DeadEndsSound (h : Heuristic) (t : Task) : Prop :=
  ∀ ⦃plan : Plan⦄ ⦃x final : State⦄ ⦃cost : Int⦄, t.IsState x →
    t.run? x plan = some (final, cost) → t.isGoal final = true → h.estimate t x ≠ .deadEnd

theorem AdmissibleOnStates.admissible {h : Heuristic} {t : Task} (hadm : h.AdmissibleOnStates t) :
    h.Admissible t :=
  fun _ _ _ _ _ _ hbefore hrun hgoal => hadm (t.isState_initial.run? hbefore) hrun hgoal

theorem minOperatorCost_le {t : Task} {op : Nat} (h : op < t.operators.size) :
    t.minOperatorCost ≤ (t.operator op).cost := by
  have fold : ∀ (l : List Operator) (least : Int),
      (l.foldl (fun least o => min least o.cost) least ≤ least) ∧
      ∀ o ∈ l, l.foldl (fun least o => min least o.cost) least ≤ o.cost := by
    intro l
    induction l with
    | nil => simp
    | cons a l ih =>
      intro least
      obtain ⟨hle, hall⟩ := ih (min least a.cost)
      rw [List.foldl_cons]
      refine ⟨by omega, fun o ho => ?_⟩
      rcases List.mem_cons.mp ho with rfl | ho
      · omega
      · exact hall o ho
  rw [Task.minOperatorCost, ← Array.foldl_toList, Task.operator_eq h]
  exact (fold _ _).2 _ (Array.mem_toList_iff.mpr (Array.getElem_mem h))

theorem minOperatorCost_nonneg (t : Task) : 0 ≤ t.minOperatorCost := by
  have fold : ∀ (l : List Operator) (least : Int), 0 ≤ least → (∀ o ∈ l, 0 ≤ o.cost) →
      0 ≤ l.foldl (fun least o => min least o.cost) least := by
    intro l
    induction l with
    | nil => exact fun _ hleast _ => hleast
    | cons a l ih =>
      intro least hleast hall
      have := hall a (List.mem_cons_self ..)
      exact ih (min least a.cost) (by omega) fun o ho => hall o (List.mem_cons_of_mem _ ho)
  rw [Task.minOperatorCost, ← Array.foldl_toList]
  refine fold _ _ (t.operator_cost_nonneg 0) fun o ho => ?_
  obtain ⟨op, hop, rfl⟩ := Array.mem_iff_getElem.mp (Array.mem_toList_iff.mp ho)
  exact Task.operator_eq hop ▸ t.operator_cost_nonneg op

theorem blind_nonnegative (t : Task) : blind.Nonnegative t := by
  intro x e _ hvalue
  obtain rfl := Estimate.value.inj hvalue
  split
  · exact Int.le_refl 0
  · exact minOperatorCost_nonneg t

theorem blind_deadEndsSound (t : Task) : blind.DeadEndsSound t :=
  fun _ _ _ _ _ _ _ => nofun

theorem blind_le {t : Task} {plan : Plan} {x final : State} {cost : Int}
    (hrun : t.run? x plan = some (final, cost)) (hgoal : t.isGoal final = true) :
    ∃ e, blind.estimate t x = .value e ∧ e ≤ cost := by
  refine ⟨_, rfl, ?_⟩
  split
  · exact Task.run?_cost_nonneg hrun
  · rename_i hx
    cases plan with
    | nil =>
      obtain ⟨rfl, -⟩ := Prod.mk.inj (Option.some.inj hrun)
      exact absurd hgoal hx
    | cons op plan =>
      obtain ⟨hop, left, hleft, rfl⟩ := Task.run?_cons_eq_some_iff.mp hrun
      have := minOperatorCost_le (Task.mem_applicable_iff.mp hop).1
      have := Task.run?_cost_nonneg hleft
      omega

theorem blind_admissibleOnStates (t : Task) : blind.AdmissibleOnStates t :=
  fun _ _ _ _ _ => blind_le

theorem blind_admissible (t : Task) : blind.Admissible t :=
  (blind_admissibleOnStates t).admissible

end RankedPlans.Heuristic
