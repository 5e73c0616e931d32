import Mathlib.Order.Bounds.Defs
import RankedPlans.Proofs.Heuristic.Admissible
import RankedPlans.Proofs.Search.Progress
import RankedPlans.Search.Decoding

/-! What a search without symmetries knows of all plans. A plan is recorded up to the first of its states
that waits, and the estimate of that one does not exceed the cost of the plan. So whatever costs less
than every estimate is in the recorded graph, and the graph holds nothing but plans. -/

namespace RankedPlans.Search

variable {c : SearchSetting} {s : Search} {v : Nat} {x : State}

theorem canonical_of_none (h : c.group = none) (x : State) : c.canonical x = (x, []) := by
  rw [SearchSetting.canonical, h]

theorem operators_operator {e op : Nat} {edge : Edge} {es : List Nat}
    (he : s.edges[e]? = some edge) (hlabel : edge.label = .operator op) :
    s.operators (e :: es) = op :: s.operators es := by
  simp [operators, he, hlabel]

theorem operators_goal {e : Nat} {edge : Edge} {es : List Nat} (he : s.edges[e]? = some edge)
    (hlabel : edge.label = .goal) : s.operators (e :: es) = s.operators es := by
  simp [operators, he, hlabel]

/-- Expanding a node neither takes the sink nor finds the open list empty. -/
theorem expand_outcome (s : Search) (v : Nat) (price : Int) :
    (∃ goal, (s.expand c v price).2 = .expanded goal) ∨
      ∃ fault, (s.expand c v price).2 = .failed fault := by
  unfold expand
  split
  · rcases relaxAgain c price (s.graph.outgoing v) s with ⟨s', _ | fault⟩
    · exact .inl ⟨_, rfl⟩
    · exact .inr ⟨_, rfl⟩
  · cases s.stateOf? v with
    | none => exact .inl ⟨_, rfl⟩
    | some x =>
      simp only
      rcases generate c v price x (c.task.applicable x) _ false with ⟨s', goal, _ | fault⟩
      · simp only
        split
        · rcases recordGoal c v price s' with ⟨s'', _ | fault⟩
          · exact .inl ⟨_, rfl⟩
          · exact .inr ⟨_, rfl⟩
        · exact .inl ⟨_, rfl⟩
      · exact .inr ⟨_, rfl⟩

theorem expand_ne_solved (s : Search) (v : Nat) (price cost : Int) :
    (s.expand c v price).2 ≠ .solved cost := by
  rcases s.expand_outcome (c := c) v price with ⟨_, heq⟩ | ⟨_, heq⟩ <;> rw [heq] <;> nofun

theorem expand_ne_exhausted (s : Search) (v : Nat) (price : Int) :
    (s.expand c v price).2 ≠ .exhausted := by
  rcases s.expand_outcome (c := c) v price with ⟨_, heq⟩ | ⟨_, heq⟩ <;> rw [heq] <;> nofun

namespace Recorded

theorem initial_state (h : Recorded c s) (hgroup : c.group = none) :
    s.stateOf? root = some c.task.initial := by
  have hroot := h.root_state
  rwa [canonical_of_none hgroup] at hroot

/-- A walk to the sink spells operators that lead to a goal. -/
theorem run?_of_walk (h : Recorded c s) (hgroup : c.group = none) {es : List Nat}
    (hes : s.graph.Walk v es sink) (hx : s.stateOf? v = some x) : ∃ final,
      c.task.run? x (s.operators es) = some (final, s.graph.cost es) ∧
      c.task.isGoal final = true := by
  induction es generalizing v x with
  | nil =>
    obtain rfl := Graph.walk_nil_iff.mp hes
    cases hx
  | cons e es ih =>
    obtain ⟨edge, he, rfl, hrest⟩ := Graph.walk_cons_iff.mp hes
    obtain ⟨y, hy, hmeant⟩ := h.meant he
    obtain rfl := Option.some.inj (hy.symm.trans hx)
    rw [Graph.cost_cons he]
    cases hlabel : edge.label with
    | operator op =>
      rw [hlabel] at hmeant
      obtain ⟨hop, hcost, htarget⟩ := hmeant
      rw [canonical_of_none hgroup] at htarget
      obtain ⟨final, hrun, hgoal⟩ := ih hrest htarget
      rw [operators_operator he hlabel]
      exact ⟨final, Task.run?_cons_eq_some_iff.mpr ⟨hop, _, hrun, by rw [hcost]⟩, hgoal⟩
    | goal =>
      rw [hlabel] at hmeant
      obtain ⟨hgoal, hcost, htarget⟩ := hmeant
      rw [htarget] at hrest
      obtain rfl := h.walk_sink hrest
      rw [operators_goal he hlabel, hcost]
      exact ⟨y, rfl, hgoal⟩

theorem planCost?_of_walk (h : Recorded c s) (hgroup : c.group = none) {es : List Nat}
    (hes : s.graph.Walk root es sink) :
    c.task.planCost? (s.operators es) = some (s.graph.cost es) := by
  obtain ⟨final, hrun, hgoal⟩ := h.run?_of_walk hgroup hes (h.initial_state hgroup)
  exact Task.planCost?_eq_some_iff.mpr ⟨final, hrun, hgoal⟩

end Recorded

namespace Underway

/-- A node that is not closed waits if a way to a goal is left whose cost the estimate does not exceed. -/
theorem waits_or_closed (h : Underway c s [] none) {past cost : Int}
    (hadm : ∃ e, c.heuristic.estimate c.task x = .value e ∧ e ≤ cost) (hpast : 0 ≤ past)
    (hcost : 0 ≤ cost) (hx : s.stateOf? v = some x) (hseen : (s.node v).status ≠ .unseen)
    (hle : s.Met v → (s.node v).cost ≤ past) :
    (∃ w, (s.node w).status = .waiting ∧
      Cost.add (s.node w).cost (s.node w).estimate ≤ past + cost) ∨
    (s.node v).status = .closed := by
  obtain ⟨e, he, hrest⟩ := hadm
  cases hstatus : (s.node v).status with
  | unseen => exact absurd hstatus hseen
  | deadEnd => cases (h.deadEnd hx hstatus).symm.trans he
  | closed => exact .inr rfl
  | waiting =>
    obtain rfl := Estimate.value.inj ((h.estimate hx (.inl hstatus)).symm.trans he)
    exact .inl ⟨v, hstatus, Int.le_trans (Cost.add_mono (hle (.inl hstatus)) hrest)
      (Cost.add_le (by omega))⟩

/-- A closed node has the edge of each operator that is applicable in its state. -/
theorem operator_edge (h : Underway c s [] none) (hclosed : (s.node v).status = .closed)
    (hx : s.stateOf? v = some x) {op : Nat} (hop : op ∈ c.task.applicable x) :
    ∃ (e : Nat) (edge : Edge), s.edges[e]? = some edge ∧ edge.source = v ∧
      edge.label = .operator op ∧ edge.cost = (c.task.operator op).cost ∧
      s.stateOf? edge.target = some (c.canonical (c.task.apply x op)).1 := by
  have hexp := h.expanded hclosed (ne_sink_of_stateOf? hx) (Option.some_ne_none v).symm
  obtain ⟨e, edge, he, rfl, hlabel⟩ := (h.complete hx hexp (Option.some_ne_none v).symm).operator op hop
  obtain ⟨y, hy, hmeant⟩ := h.recorded.meant he
  obtain rfl := Option.some.inj (hy.symm.trans hx)
  rw [hlabel] at hmeant
  exact ⟨e, edge, he, rfl, hlabel, hmeant.2⟩

/-- A closed node whose state is a goal has an edge to the sink. -/
theorem goal_edge (h : Underway c s [] none) (hclosed : (s.node v).status = .closed)
    (hx : s.stateOf? v = some x) (hgoal : c.task.isGoal x = true) :
    ∃ (e : Nat) (edge : Edge), s.edges[e]? = some edge ∧ edge.source = v ∧ edge.label = .goal ∧
      edge.cost = 0 ∧ edge.target = sink := by
  have hexp := h.expanded hclosed (ne_sink_of_stateOf? hx) (Option.some_ne_none v).symm
  obtain ⟨e, edge, he, rfl, hlabel⟩ := (h.complete hx hexp (Option.some_ne_none v).symm).goal hgoal
  obtain ⟨y, -, hmeant⟩ := h.recorded.meant he
  rw [hlabel] at hmeant
  exact ⟨e, edge, he, rfl, hlabel, hmeant.2⟩

/-- The least estimate of the open list is at most that of every waiting node. -/
theorem leastEstimate?_le (h : Underway c s [] none) (hv : (s.node v).status = .waiting) :
    ∃ f, s.leastEstimate?.1 = some f ∧ f ≤ Cost.add (s.node v).cost (s.node v).estimate := by
  obtain ⟨number, hmem⟩ := h.waits hv
  exact (OpenList.least?_spec h.valid).2 _ hmem (isCurrent_iff.mpr ⟨hv, rfl⟩)

/-- When the sink is taken, its cost is that of a walk and at most every estimate. -/
theorem sink_of_solved (h : Underway c s [] none) {cost : Int} (hs : (s.step c).2 = .solved cost) :
    (s.node sink).status = .waiting ∧ (s.node sink).cost = cost ∧
      ∀ w, (s.node w).status = .waiting →
        cost ≤ Cost.add (s.node w).cost (s.node w).estimate := by
  rcases h.step_cases with ⟨-, heq⟩ | ⟨o, -, -, heq⟩ | ⟨v, o, hv, ⟨rfl, heq⟩ | ⟨hsink, heq⟩⟩
  · rw [heq] at hs
    cases hs
  · rw [heq] at hs
    cases hs
  · rw [heq] at hs
    obtain rfl : (s.node sink).cost = cost := StepOutcome.solved.inj hs
    refine ⟨hv.waiting, rfl, fun w hw => ?_⟩
    have hle := hv.least hw
    rwa [h.sink_estimate, Cost.add_zero (h.cost_nonneg (.inl hv.waiting))
      (h.cost_le_top (.inl hv.waiting))] at hle
  · rw [heq] at hs
    exact absurd hs (expand_ne_solved _ _ _ _)

/-- A closed node has passed its cost on along its edges, to a target that waits or can be opened again. -/
theorem cost_passed (h : Underway c s [] none) {e : Nat} {edge : Edge} {past : Int}
    (he : s.edges[e]? = some edge) (hclosed : (s.node edge.source).status = .closed)
    (hpast : 0 ≤ past) (hle : s.Met edge.source → (s.node edge.source).cost ≤ past) :
    (s.node edge.target).status ≠ .unseen ∧ (s.Met edge.target →
      c.reopen = true ∧ edge.target ≠ sink ∨ (s.node edge.target).status = .waiting →
      (s.node edge.target).cost ≤ past + edge.cost) := by
  obtain ⟨hseen, htried⟩ := h.tried he List.not_mem_nil hclosed
  refine ⟨hseen, fun hmet hopen => ?_⟩
  rcases htried with hdead | ⟨hdone, hfinal⟩ | hcost
  · rw [Met, hdead] at hmet
    simp at hmet
  · rcases hopen with ⟨hreopen, hne⟩ | hwaits
    · rw [hreopen] at hfinal
      exact absurd hfinal (by simp [hne])
    · cases hdone.symm.trans hwaits
  · have hprice := h.recorded.cost_nonneg he
    exact Int.le_trans hcost (Int.le_trans (Cost.add_mono (hle (.inr hclosed)) (Int.le_refl _))
      (Cost.add_le (by omega)))

end Underway

/-- Real states beside the nodes that stand for them and the way in which walks from there are read. Whatever
can be done in the real state has an edge out of the node once it is closed, and the state of the node is
as far from a goal as the real one. -/
structure Simulates (c : SearchSetting) (s : Search) (r : State → Nat → (List Nat → Plan) → Prop) :
    Prop where
  state : ∀ {x v read}, r x v read → ∃ y, s.stateOf? v = some y ∧ ∀ plan final cost,
    c.task.run? x plan = some (final, cost) → c.task.isGoal final = true →
    ∃ image final', c.task.run? y image = some (final', cost) ∧ c.task.isGoal final' = true
  operator : ∀ {x v read op}, r x v read → (s.node v).status = .closed → op ∈ c.task.applicable x →
    ∃ (e : Nat) (edge : Edge) (rest : List Nat → Plan), s.edges[e]? = some edge ∧ edge.source = v ∧
      edge.cost = (c.task.operator op).cost ∧ r (c.task.apply x op) edge.target rest ∧
      ∀ es, read (e :: es) = op :: rest es
  goal : ∀ {x v read}, r x v read → (s.node v).status = .closed → c.task.isGoal x = true →
    ∃ (e : Nat) (edge : Edge), s.edges[e]? = some edge ∧ edge.source = v ∧ edge.cost = 0 ∧
      edge.target = sink ∧ read [e] = []

/-- The estimates of the nodes are admissible, too. -/
structure Tracks (c : SearchSetting) (s : Search) (r : State → Nat → (List Nat → Plan) → Prop) : Prop
    extends Simulates c s r where
  estimate : ∀ {x y v read plan final cost}, r x v read → s.stateOf? v = some y →
    c.task.run? y plan = some (final, cost) → c.task.isGoal final = true →
    ∃ e, c.heuristic.estimate c.task y = .value e ∧ e ≤ cost

/-- A plan that is left from a real state bounds the estimate of its node. -/
theorem Tracks.estimate_le {r : State → Nat → (List Nat → Plan) → Prop} {read : List Nat → Plan}
    (ht : Tracks c s r) {plan : Plan} {final : State} {cost : Int} (hr : r x v read)
    (hrun : c.task.run? x plan = some (final, cost)) (hgoal : c.task.isGoal final = true) :
    ∃ y, s.stateOf? v = some y ∧ ∃ e, c.heuristic.estimate c.task y = .value e ∧ e ≤ cost := by
  obtain ⟨y, hy, himage⟩ := ht.state hr
  obtain ⟨image, final', hrun', hgoal'⟩ := himage plan final cost hrun hgoal
  exact ⟨y, hy, ht.estimate hr hy hrun' hgoal'⟩

/-- From a state of known cost on, a plan is read off a walk or runs into a waiting node of a low
estimate. -/
theorem Tracks.recorded_or_waits {r : State → Nat → (List Nat → Plan) → Prop}
    {read : List Nat → Plan} (ht : Tracks c s r) (h : Progress c s [] none) {plan : Plan} {final : State}
    {past cost : Int} (hr : r x v read) (hpast : 0 ≤ past)
    (hrun : c.task.run? x plan = some (final, cost)) (hgoal : c.task.isGoal final = true)
    (hseen : (s.node v).status ≠ .unseen) (hle : s.Met v → (s.node v).cost ≤ past) :
    (∃ es, s.graph.Walk v es sink ∧ read es = plan ∧ s.graph.cost es = cost ∧
      ((s.node sink).status = .waiting → (s.node sink).cost ≤ past + cost)) ∨
    ∃ w, (s.node w).status = .waiting ∧
      Cost.add (s.node w).cost (s.node w).estimate ≤ past + cost := by
  -- The induction is on the plan; the real state, its node and the reading move on together.
  induction plan generalizing x past cost v read with
  | nil =>
    obtain ⟨y, hy, hadm⟩ := ht.estimate_le hr hrun hgoal
    refine (h.waits_or_closed hadm hpast (Task.run?_cost_nonneg hrun) hy hseen
      hle).symm.imp (fun hclosed => ?_) id
    obtain ⟨rfl, rfl⟩ := Prod.mk.inj (Option.some.inj hrun)
    obtain ⟨e, edge, he, rfl, hcost, htarget, hread⟩ := ht.goal hr hclosed hgoal
    obtain ⟨-, hpassed⟩ := h.cost_passed he hclosed hpast hle
    rw [htarget, hcost] at hpassed
    refine ⟨[e], Graph.walk_cons_iff.mpr ⟨edge, he, rfl, htarget ▸ .nil _⟩, hread, ?_,
      fun hwaits => hpassed (.inl hwaits) (.inr hwaits)⟩
    rw [Graph.cost_cons he, hcost, Graph.cost_nil]
    rfl
  | cons op plan ih =>
    obtain ⟨y, hy, hadm⟩ := ht.estimate_le hr hrun hgoal
    rcases h.waits_or_closed hadm hpast (Task.run?_cost_nonneg hrun) hy hseen hle
      with hwaits | hclosed
    · exact .inr hwaits
    obtain ⟨hop, left, hleft, rfl⟩ := Task.run?_cons_eq_some_iff.mp hrun
    obtain ⟨e, edge, rest, he, rfl, hcost, hnext, hread⟩ := ht.operator hr hclosed hop
    obtain ⟨z, hz, -⟩ := ht.state hnext
    obtain ⟨hseen', hpassed⟩ := h.cost_passed he hclosed hpast hle
    have hprice := c.task.operator_cost_nonneg op
    have hle' : s.Met edge.target →
        (s.node edge.target).cost ≤ past + (c.task.operator op).cost := fun hmet =>
      hcost ▸ hpassed hmet (.inl ⟨h.reopen, ne_sink_of_stateOf? hz⟩)
    refine (ih hnext (by omega) hleft hseen' hle').imp ?_ ?_
    · rintro ⟨es, hes, hplan, htotal, hsink⟩
      refine ⟨e :: es, Graph.walk_cons_iff.mpr ⟨edge, he, rfl, hes⟩, ?_, ?_, ?_⟩
      · rw [hread, hplan]
      · rw [Graph.cost_cons he, htotal, hcost]
      · rwa [← Int.add_assoc]
    · rintro ⟨w, hw, hle⟩
      exact ⟨w, hw, by rwa [← Int.add_assoc]⟩

/-- Without symmetries the nodes stand for their states, as far as these can be come to. -/
theorem Underway.simulates_states (h : Underway c s [] none) (hgroup : c.group = none) :
    Simulates c s fun x v read => s.stateOf? v = some x ∧
      (∃ before past, c.task.run? c.task.initial before = some (x, past)) ∧ read = s.operators where
  state := by
    rintro x v read ⟨hx, -, -⟩
    exact ⟨x, hx, fun plan final cost hrun hgoal => ⟨plan, final, hrun, hgoal⟩⟩
  operator := by
    rintro x v read op ⟨hx, ⟨before, past, hbefore⟩, rfl⟩ hclosed hop
    obtain ⟨e, edge, he, hsource, hlabel, hcost, htarget⟩ := h.operator_edge hclosed hx hop
    rw [canonical_of_none hgroup] at htarget
    exact ⟨e, edge, _, he, hsource, hcost, ⟨htarget, ⟨_, _, Task.run?_concat hbefore hop⟩, rfl⟩,
      fun es => operators_operator he hlabel⟩
  goal := by
    rintro x v read ⟨hx, -, rfl⟩ hclosed hgoal
    obtain ⟨e, edge, he, hsource, hlabel, hcost, htarget⟩ := h.goal_edge hclosed hx hgoal
    exact ⟨e, edge, he, hsource, hcost, htarget, operators_goal he hlabel⟩

namespace Progress

theorem tracks_states (h : Progress c s [] none) (hgroup : c.group = none)
    (hadm : c.heuristic.Admissible c.task) :
    Tracks c s fun x v read => s.stateOf? v = some x ∧
      (∃ before past, c.task.run? c.task.initial before = some (x, past)) ∧ read = s.operators where
  toSimulates := h.simulates_states hgroup
  estimate := by
    rintro x y v read plan final cost ⟨hx, ⟨before, past, hbefore⟩, -⟩ hy hrun hgoal
    obtain rfl := Option.some.inj (hx.symm.trans hy)
    exact hadm hbefore hrun hgoal

theorem plan_recorded_or_waits (h : Progress c s [] none) (hroot : (s.node root).status ≠ .unseen)
    (hgroup : c.group = none) (hadm : c.heuristic.Admissible c.task) {plan : Plan} {cost : Int}
    (hplan : c.task.planCost? plan = some cost) :
    (∃ es, s.graph.Walk root es sink ∧ s.operators es = plan ∧ s.graph.cost es = cost ∧
      ((s.node sink).status = .waiting → (s.node sink).cost ≤ cost)) ∨
    ∃ w, (s.node w).status = .waiting ∧ Cost.add (s.node w).cost (s.node w).estimate ≤ cost := by
  obtain ⟨final, hrun, hgoal⟩ := Task.planCost?_eq_some_iff.mp hplan
  have hstate := h.recorded.initial_state hgroup
  simpa using (h.tracks_states hgroup hadm).recorded_or_waits h ⟨hstate, ⟨[], 0, rfl⟩, rfl⟩
    (Int.le_refl 0) hrun hgoal hroot fun _ => h.root_cost

/-- A plan that costs less than every estimate is recorded. -/
theorem exists_walk (h : Progress c s [] none) (hroot : (s.node root).status ≠ .unseen)
    (hgroup : c.group = none) (hadm : c.heuristic.Admissible c.task) {plan : Plan} {cost : Int}
    (hplan : c.task.planCost? plan = some cost)
    (hlt : ∀ f, s.leastEstimate?.1 = some f → cost < f) :
    ∃ es, s.graph.Walk root es sink ∧ s.operators es = plan ∧ s.graph.cost es = cost := by
  rcases h.plan_recorded_or_waits hroot hgroup hadm hplan with ⟨es, hes, hops, hcost, -⟩ |
    ⟨w, hw, hle⟩
  · exact ⟨es, hes, hops, hcost⟩
  · obtain ⟨f, hf, hfle⟩ := h.leastEstimate?_le hw
    have := hlt f hf
    omega

/-- The cost at which the sink is taken is the least cost of a plan. -/
theorem isLeast_of_solved (h : Progress c s [] none) (hroot : (s.node root).status ≠ .unseen)
    (hgroup : c.group = none) (hadm : c.heuristic.Admissible c.task)
    (hrange : ∀ plan cost, c.task.planCost? plan = some cost →
      ∃ plan' cost', c.task.planCost? plan' = some cost' ∧ cost' ≤ Cost.top)
    {cost : Int} (hs : (s.step c).2 = .solved cost) :
    IsLeast { cost | ∃ plan, c.task.planCost? plan = some cost } cost := by
  obtain ⟨hsink, hcost, hmin⟩ := h.sink_of_solved hs
  have hlower : ∀ {plan cost'}, c.task.planCost? plan = some cost' → cost ≤ cost' := by
    intro plan cost' hplan
    rcases h.plan_recorded_or_waits hroot hgroup hadm hplan with ⟨-, -, -, -, hle⟩ | ⟨w, hw, hle⟩
    · exact hcost ▸ hle hsink
    · exact Int.le_trans (hmin w hw) hle
  refine ⟨?_, fun cost' ⟨plan, hplan⟩ => hlower hplan⟩
  obtain ⟨es, hes, hwalk⟩ := h.walk (.inl hsink)
  have hplan := h.recorded.planCost?_of_walk hgroup hes
  obtain ⟨plan', cost', hplan', htop⟩ := hrange _ _ hplan
  rcases Int.le_total (s.graph.cost es) Cost.top with hle | hge
  · exact ⟨_, by rw [hplan, ← hcost, hwalk, Int.min_eq_right hle]⟩
  · have := hlower hplan'
    refine ⟨plan', ?_⟩
    rw [hplan', ← hcost, hwalk, Int.min_eq_left hge]
    congr 1
    omega

end Progress

/-- At any point of a search without failure: every plan that costs less than the least estimate is
spelled by a walk to the sink, every such walk spells a plan, and a search that says that it is solved
knows the least cost of a plan. -/
theorem Faultless.certifies (h : Faultless c s) (hgroup : c.group = none)
    (hreopen : c.reopen = true) (hadm : c.heuristic.Admissible c.task)
    (hrange : ∀ plan cost, c.task.planCost? plan = some cost →
      ∃ plan' cost', c.task.planCost? plan' = some cost' ∧ cost' ≤ Cost.top) :
    (∀ plan cost, c.task.planCost? plan = some cost →
      (∀ f, s.leastEstimate?.1 = some f → cost < f) →
      ∃ es, s.graph.Walk root es sink ∧ s.operators es = plan ∧ s.graph.cost es = cost) ∧
    (∀ es, s.graph.Walk root es sink →
      c.task.planCost? (s.operators es) = some (s.graph.cost es)) ∧
    ∀ cost, (s.step c).2 = .solved cost →
      IsLeast { cost | ∃ plan, c.task.planCost? plan = some cost } cost := by
  obtain ⟨hs, hroot⟩ := h.progress hreopen
  exact ⟨fun plan cost hplan hlt => hs.exists_walk hroot hgroup hadm hplan hlt,
    fun es hes => hs.recorded.planCost?_of_walk hgroup hes,
    fun cost hsolved => hs.isLeast_of_solved hroot hgroup hadm hrange hsolved⟩

/-- One variable that one operator moves to its goal. -/
def singleMove : Task where
  vars := #[⟨"x", ["a", "b"]⟩]
  operators := #[⟨"move", 1, [⟨0, 0⟩], [⟨0, 1⟩]⟩]
  initial := #[0]
  goal := [⟨0, 1⟩]
  normalized := by decide +kernel
  faultless := by decide +kernel

def singleMoveSetting : SearchSetting := ⟨singleMove, .blind, none, true, none⟩

/-- A search for that move, after so many steps. -/
def singleMoveSearch : Nat → Search
  | 0 => ((seed singleMoveSetting).open? singleMoveSetting root 0 none).1
  | n + 1 => ((singleMoveSearch n).step singleMoveSetting).1

theorem singleMoveSearch_faultless : Faultless singleMoveSetting (singleMoveSearch 2) := by
  have hstart : start singleMoveSetting = .ok (singleMoveSearch 0) := start_eq_ok (by decide +kernel)
  have hfirst : ((singleMoveSearch 0).step singleMoveSetting).2 = .expanded true := by
    decide +kernel
  have hsecond : ((singleMoveSearch 1).step singleMoveSetting).2 = .expanded true := by
    decide +kernel
  have hone : Faultless singleMoveSetting (singleMoveSearch 1) :=
    .step (.start hstart) (by rw [hfirst]; nofun)
  exact hone.step (by rw [hsecond]; nofun)

theorem Faultless.certifies_singleMove :
    Faultless singleMoveSetting (singleMoveSearch 3) ∧
    IsLeast { cost | ∃ plan, singleMove.planCost? plan = some cost } 1 ∧
    ∃ es, (singleMoveSearch 3).graph.Walk root es sink ∧ (singleMoveSearch 3).operators es = [0] ∧
      (singleMoveSearch 3).graph.cost es = 1 := by
  have hsolved : ((singleMoveSearch 2).step singleMoveSetting).2 = .solved 1 := by decide +kernel
  have hfinal : Faultless singleMoveSetting (singleMoveSearch 3) :=
    singleMoveSearch_faultless.step (by rw [hsolved]; nofun)
  have hadm := Heuristic.blind_admissible singleMove
  have hrange : ∀ plan cost, singleMove.planCost? plan = some cost →
      ∃ plan' cost', singleMove.planCost? plan' = some cost' ∧ cost' ≤ Cost.top :=
    fun _ _ _ => ⟨[0], 1, by decide +kernel, by decide⟩
  obtain ⟨-, -, hleast⟩ := Faultless.certifies singleMoveSearch_faultless rfl rfl hadm hrange
  obtain ⟨hwalk, -, -⟩ := Faultless.certifies hfinal rfl rfl hadm hrange
  have hnone : (singleMoveSearch 3).leastEstimate?.1 = none := by decide +kernel
  exact ⟨hfinal, hleast 1 hsolved, hwalk [0] 1 (by decide +kernel) (by simp [hnone])⟩

end RankedPlans.Search
