import RankedPlans.Cost
import RankedPlans.Proofs.Heuristic.Admissible

/-! Estimates that fall along an operator by no more than its cost. -/

namespace RankedPlans.Heuristic

variable {h : Heuristic} {t : Task} {before plan : Plan} {x y : State} {past cost e : Int}

/-- In a state that the task can come to, the estimate exceeds that of a successor by no more than the cost of
the operator; from a dead end only dead ends can be come to. -/
def Consistent (h : Heuristic) (t : Task) : Prop :=
  ∀ ⦃before : Plan⦄ ⦃x : State⦄ ⦃past : Int⦄ ⦃op : Nat⦄ ⦃after : Int⦄,
    t.run? t.initial before = some (x, past) → op ∈ t.applicable x →
    h.estimate t (t.apply x op) = .value after →
    ∃ e, h.estimate t x = .value e ∧ e ≤ (t.operator op).cost + after

/-- The initial estimate is in the range of costs, and so is, behind some run to each state, the cost of each
operator together with the estimate after it. -/
structure Fits (h : Heuristic) (t : Task) : Prop where
  initial : ∀ e, h.estimate t t.initial = .value e → e ≤ Cost.top
  operator : ∀ ⦃before : Plan⦄ ⦃x : State⦄ ⦃past : Int⦄ ⦃op : Nat⦄ ⦃after : Int⦄,
    t.run? t.initial before = some (x, past) → op ∈ t.applicable x →
    h.estimate t (t.apply x op) = .value after →
    ∃ before' past', t.run? t.initial before' = some (x, past') ∧
      past' + (t.operator op).cost + after ≤ Cost.top

/-- Along a run the estimate falls by no more than the run costs. -/
theorem Consistent.estimate_le (hc : h.Consistent t) (hbefore : t.run? t.initial before = some (x, past))
    (hrun : t.run? x plan = some (y, cost)) (he : h.estimate t y = .value e) :
    ∃ e', h.estimate t x = .value e' ∧ e' ≤ cost + e := by
  induction plan generalizing before x past cost with
  | nil =>
    obtain ⟨rfl, rfl⟩ := Prod.mk.inj (Option.some.inj hrun)
    exact ⟨e, he, by omega⟩
  | cons op plan ih =>
    obtain ⟨hop, left, hleft, rfl⟩ := Task.run?_cons_eq_some_iff.mp hrun
    obtain ⟨after, hafter, hle⟩ := ih (Task.run?_concat hbefore hop) hleft
    obtain ⟨e', he', hle'⟩ := hc hbefore hop hafter
    exact ⟨e', he', by omega⟩

/-- Some run to a state fits into the range of costs together with the estimate there. -/
theorem Fits.exists_run (hf : h.Fits t) (hbefore : t.run? t.initial before = some (x, past))
    (he : h.estimate t x = .value e) :
    ∃ plan cost, t.run? t.initial plan = some (x, cost) ∧ cost + e ≤ Cost.top := by
  rcases List.eq_nil_or_concat before with rfl | ⟨first, op, rfl⟩
  · obtain ⟨rfl, rfl⟩ := Prod.mk.inj (Option.some.inj hbefore)
    exact ⟨[], 0, rfl, by have := hf.initial e he; omega⟩
  · rw [List.concat_eq_append] at hbefore
    obtain ⟨y, past', hfirst, hop, rfl⟩ := Task.exists_run?_of_concat hbefore
    obtain ⟨before', past'', hrun, hle⟩ := hf.operator hfirst hop he
    exact ⟨_, _, Task.run?_concat hrun hop, hle⟩

/-- Whether estimates fall from a state to its successor by no more than a cost. -/
def fallsBy (cost : Int) : Estimate → Estimate → Bool
  | _, .deadEnd => true
  | .deadEnd, .value _ => false
  | .value e, .value after => e ≤ cost + after

/-- Estimates are consistent if all states, whether they can be come to or not, say so. -/
theorem consistent_of_states (hall : ∀ xs ∈ t.stateLists, ∀ op ∈ t.applicable ⟨xs⟩,
    fallsBy (t.operator op).cost (h.estimate t ⟨xs⟩) (h.estimate t (t.apply ⟨xs⟩ op)) = true) :
    h.Consistent t := by
  intro before x past op after hbefore hop hafter
  have hfalls := hall _ (t.isState_initial.run? hbefore).mem_stateLists op hop
  rw [hafter] at hfalls
  cases he : h.estimate t x with
  | deadEnd =>
    rw [he] at hfalls
    cases hfalls
  | value e =>
    rw [he] at hfalls
    exact ⟨e, rfl, of_decide_eq_true hfalls⟩

theorem blind_consistent (t : Task) : blind.Consistent t := by
  intro before x past op after _ hop hafter
  have hleast := minOperatorCost_le (Task.mem_applicable_iff.mp hop).1
  have hcost := t.operator_cost_nonneg op
  have hmin := minOperatorCost_nonneg t
  refine ⟨_, rfl, ?_⟩
  obtain rfl := Estimate.value.inj hafter
  split <;> split <;> omega

end RankedPlans.Heuristic
