import RankedPlans.Proofs.Heuristic.Consistent
import RankedPlans.Proofs.Search.Exhaustion

/-! Searches with consistent estimates. When a node is taken, no other way to its state can be cheaper, for
the first node of such a way that is not closed waits with a sum of cost and estimate that is no higher. So
the cost of a closed node is the least one and no edge offers a lower one: it does not matter whether closed
nodes could be opened again, and the sums of the nodes that are expanded never fall. -/

namespace RankedPlans

/-- A search without symmetries in which estimates are consistent, not below zero and in range. -/
structure SearchSetting.Consistent (c : SearchSetting) : Prop where
  group : c.group = none
  consistent : c.heuristic.Consistent c.task
  nonnegative : c.heuristic.Nonnegative c.task
  fits : c.heuristic.Fits c.task

theorem SearchSetting.Consistent.grouped {c : SearchSetting} (h : c.Consistent) : c.Grouped := by
  intro g hg
  cases h.group.symm.trans hg

namespace Search

variable {c : SearchSetting} {s s' : Search} {v w : Nat} {x y : State} {cost : Int}

/-- Closed nodes have the least costs of their states and are never opened again. -/
structure Final (c : SearchSetting) (s : Search) : Prop where
  least : ∀ {v : Nat} {x : State} {plan : Plan} {cost : Int}, s.stateOf? v = some x →
    (s.node v).status = .closed → c.task.run? c.task.initial plan = some (x, cost) →
    (s.node v).cost ≤ cost
  closed : ∀ {v : Nat}, v ≠ sink → (s.node v).expanded = true → (s.node v).status = .closed
  reopened : s.statistics.reopened = 0

/-- The cost of a node is that of a run to its state. -/
theorem Underway.exists_run (h : Underway c s [] none) (hgroup : c.group = none) (hv : s.Met v)
    (hx : s.stateOf? v = some x) : ∃ plan past,
      c.task.run? c.task.initial plan = some (x, past) ∧ (s.node v).cost = min Cost.top past := by
  obtain ⟨es, hes, hcost⟩ := h.walk hv
  have hroot := h.recorded.initial_state hgroup
  exact ⟨_, _, (h.recorded.run?_of_walk_state hgroup hes hroot hx).1, hcost⟩

namespace Final

variable {plan : Plan} {past : Int} {o : OpenList}

/-- From a state of known cost on, a run either has been followed to its end or leads over a waiting node. -/
theorem closed_or_waits (hf : Final c s) (h : Underway c s [] none) (hc : c.Consistent)
    {before : Plan} {e : Int} (hx : s.stateOf? v = some x) (hseen : (s.node v).status ≠ .unseen)
    (hle : s.Met v → (s.node v).cost ≤ past)
    (hbefore : c.task.run? c.task.initial before = some (x, past))
    (hrun : c.task.run? x plan = some (y, cost)) (he : c.heuristic.estimate c.task y = .value e)
    (hpos : 0 ≤ e) :
    (∃ w, s.stateOf? w = some y ∧ (s.node w).status = .closed) ∨
    ∃ w, (s.node w).status = .waiting ∧
      Cost.add (s.node w).cost (s.node w).estimate ≤ past + (cost + e) := by
  -- The induction is on the run that is left; the run before it grows.
  induction plan generalizing x past cost v before with
  | nil =>
    obtain ⟨rfl, rfl⟩ := Prod.mk.inj (Option.some.inj hrun)
    have hadm := hc.consistent.estimate_le hbefore hrun he
    refine (h.waits_or_closed hadm (Task.run?_cost_nonneg hbefore) (by omega) hx hseen hle).symm.imp ?_ id
    exact fun hclosed => ⟨v, hx, hclosed⟩
  | cons op plan ih =>
    have hadm := hc.consistent.estimate_le hbefore hrun he
    have hpast := Task.run?_cost_nonneg hbefore
    have hcost := Task.run?_cost_nonneg hrun
    rcases h.waits_or_closed hadm hpast (by omega) hx hseen hle with hwaits | hclosed
    · exact .inr hwaits
    obtain ⟨hop, left, hleft, rfl⟩ := Task.run?_cons_eq_some_iff.mp hrun
    obtain ⟨e', edge, hedge, rfl, -, hprice, htarget⟩ := h.operator_edge hclosed hx hop
    rw [canonical_of_none hc.group] at htarget
    have hnext := Task.run?_concat hbefore hop
    obtain ⟨hseen', hpassed⟩ := h.cost_passed hedge hclosed hpast hle
    have hle' : s.Met edge.target →
        (s.node edge.target).cost ≤ past + (c.task.operator op).cost := by
      rintro (hw | hw)
      · exact hprice ▸ hpassed (.inl hw) (.inr hw)
      · exact hf.least htarget hw hnext
    have hrest := ih htarget hseen' hle' hnext hleft
    rwa [Int.add_assoc, ← Int.add_assoc _ left] at hrest

/-- The sum of cost and estimate of a waiting node is in the range of costs. -/
theorem add_le_top (hf : Final c s) (h : Underway c s [] none) (hc : c.Consistent)
    (hx : s.stateOf? v = some x) (hv : (s.node v).status = .waiting) :
    (s.node v).cost + (s.node v).estimate ≤ Cost.top := by
  have hestimate := h.estimate hx (.inl hv)
  have hroot := h.recorded.initial_state hc.group
  obtain ⟨es, hes, -⟩ := h.walk (.inl hv)
  rcases List.eq_nil_or_concat es with rfl | ⟨first, e, rfl⟩
  · obtain rfl := Graph.walk_nil_iff.mp hes
    obtain rfl := Option.some.inj (hroot.symm.trans hx)
    have := hc.fits.initial _ hestimate
    have := h.root_cost
    omega
  -- The node before it is closed, at the cost of the run that fits.
  · rw [List.concat_eq_append] at hes
    obtain ⟨edge, he, rfl, hfirst⟩ := Graph.walk_concat_iff.mp hes
    have he : s.edges[e]? = some edge := he
    obtain ⟨z, hz, hmeant⟩ := h.recorded.meant he
    have hclosed := hf.closed (ne_sink_of_stateOf? hz) (h.recorded.expanded he)
    cases hlabel : edge.label with
    | goal =>
      rw [hlabel] at hmeant
      exact absurd hmeant.2.2 (ne_sink_of_stateOf? hx)
    | operator op =>
      rw [hlabel] at hmeant
      obtain ⟨hop, hprice, htarget⟩ := hmeant
      rw [canonical_of_none hc.group] at htarget
      obtain rfl := Option.some.inj (htarget.symm.trans hx)
      have hrun := (h.recorded.run?_of_walk_state hc.group hfirst hroot hz).1
      obtain ⟨before, past, hbefore, hfit⟩ := hc.fits.operator hrun hop hestimate
      have hpassed := (h.cost_passed he hclosed (Task.run?_cost_nonneg hbefore)
        fun _ => hf.least hz hclosed hbefore).2 (.inl hv) (.inr hv)
      omega

/-- When a node is taken, its cost is the least one. -/
theorem least_of_taken (hf : Final c s) (h : Underway c s [] none)
    (hroot : (s.node root).status ≠ .unseen) (hc : c.Consistent) (hv : Taken s v o)
    (hx : s.stateOf? v = some x) (hrun : c.task.run? c.task.initial plan = some (x, past)) :
    (s.node v).cost ≤ past := by
  have hmet : s.Met v := .inl hv.waiting
  have hestimate := h.estimate hx hmet
  have hpos := hc.nonnegative (c.task.isState_initial.run? hrun) hestimate
  have hinitial := h.recorded.initial_state hc.group
  have hcost := h.cost_nonneg hmet
  have htop := hf.add_le_top h hc hx hv.waiting
  have hempty : c.task.run? c.task.initial [] = some (c.task.initial, 0) := rfl
  rcases hf.closed_or_waits h hc hinitial hroot (fun _ => h.root_cost) hempty hrun hestimate hpos with
    ⟨w, hw, hclosed⟩ | ⟨w, hw, hle⟩
  · obtain rfl := stateOf?_injective hx hw
    cases hv.waiting.symm.trans hclosed
  · have hleast := hv.least hw
    rw [Cost.add_eq (by simp only [Cost.bottom, int64Min]; omega) htop] at hleast
    omega

end Final

end Search

end RankedPlans
