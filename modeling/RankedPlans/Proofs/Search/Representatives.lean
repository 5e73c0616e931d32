import RankedPlans.Proofs.Search.Decoding
import RankedPlans.Proofs.Search.Optimum
import RankedPlans.Proofs.Symmetry.PlanOrbit

/-! What a search among representatives knows of all plans. The representative of a state need not be the
least state of its orbit, and one orbit may have several of them. But whatever can be done in a real
state can be done, at the same cost, in its image under the trace, so a plan is followed from node to node
until one of them waits, and the walk that follows it to the end decodes to it. -/

namespace RankedPlans

/-- The group in use, if there is one, consists of symmetries. -/
def SearchSetting.Grouped (c : SearchSetting) : Prop :=
  ∀ g, c.group = some g → g.Sound c.task

/-- The group in use, if there is one, consists of symmetries, and the estimates are admissible wherever
they may take a state. -/
def SearchSetting.Symmetric (c : SearchSetting) : Prop :=
  ∀ g, c.group = some g → g.Sound c.task ∧ c.heuristic.AdmissibleOnStates c.task

theorem SearchSetting.Symmetric.grouped {c : SearchSetting} (hc : c.Symmetric) : c.Grouped :=
  fun g hg => (hc g hg).1

theorem SearchSetting.Grouped.isState_canonical {c : SearchSetting} {x : State} (hc : c.Grouped)
    (hx : c.task.IsState x) : c.task.IsState (c.canonical x).1 := by
  cases hgroup : c.group with
  | none => rwa [Search.canonical_of_none hgroup]
  | some g =>
    obtain ⟨hvalid, hstate⟩ := g.canonicalState_spec x
    rw [Search.canonical_of_some hgroup, hstate]
    exact g.isState_mapState (hc g hgroup) hvalid hx

namespace Search

variable {c : SearchSetting} {s : Search} {g : SymmetryGroup} {v : Nat} {x final : State}
  {trace : List Nat} {plan : Plan} {cost : Int}

namespace Follows

/-- A closed node has the edge of the image of each operator that is applicable in the real state. It
decodes to that operator, and its target follows the state that the operator leads to. -/
theorem operator_edge (hf : Follows c s g trace x v) (h : Underway c s [] none)
    (hgroup : c.group = some g) (hg : g.Sound c.task) (hclosed : (s.node v).status = .closed) {op : Nat}
    (hop : op ∈ c.task.applicable x) :
    ∃ (e : Nat) (edge : Edge) (moved : List Nat), s.edges[e]? = some edge ∧ edge.source = v ∧
      edge.cost = (c.task.operator op).cost ∧
      Follows c s g (trace ++ moved) (c.task.apply x op) edge.target ∧
      ∀ es, decodeFrom c s g trace (e :: es) = op :: decodeFrom c s g (trace ++ moved) es := by
  have hlt := (Task.mem_applicable_iff.mp hop).1
  have himage := (g.mem_applicable_mapState hg hf.valid hf.isState hlt).mpr hop
  obtain ⟨e, edge, he, rfl, hlabel, hcost, htarget⟩ := h.operator_edge hclosed hf.state himage
  obtain ⟨-, hprice, hnext⟩ := hf.step hg hgroup hf.state himage htarget
  rw [g.unmapOperator_mapOperator hg hf.valid hlt] at hprice hnext
  refine ⟨e, edge, _, he, rfl, hcost.trans hprice.symm, hnext, fun es => ?_⟩
  rw [decodeFrom_operator he hlabel hf.state, g.unmapOperator_mapOperator hg hf.valid hlt]

/-- The nodes stand for the real states whose images they hold. -/
theorem simulates (h : Underway c s [] none) (hgroup : c.group = some g) (hg : g.Sound c.task) :
    Simulates c s fun x v read =>
      ∃ trace, Follows c s g trace x v ∧ read = decodeFrom c s g trace where
  state := by
    rintro x v read ⟨trace, hf, -⟩
    refine ⟨_, hf.state, fun plan final cost hrun hgoal => ?_⟩
    obtain ⟨image, himage⟩ := g.exists_run?_mapState hg hf.valid hf.isState hrun
    exact ⟨image, _, himage, (g.isGoal_mapState hg hf.valid (hf.isState.run? hrun)).mpr hgoal⟩
  operator := by
    rintro x v read op ⟨trace, hf, rfl⟩ hclosed hop
    obtain ⟨e, edge, moved, he, hsource, hcost, hnext, hdecode⟩ := hf.operator_edge h hgroup hg hclosed hop
    exact ⟨e, edge, _, he, hsource, hcost, ⟨_, hnext, rfl⟩, hdecode⟩
  goal := by
    rintro x v read ⟨trace, hf, rfl⟩ hclosed hgoal
    have himage := (g.isGoal_mapState hg hf.valid hf.isState).mpr hgoal
    obtain ⟨e, edge, he, hsource, hlabel, hcost, htarget⟩ := h.goal_edge hclosed hf.state himage
    exact ⟨e, edge, he, hsource, hcost, htarget, decodeFrom_goal he hlabel⟩

theorem tracks (h : Progress c s [] none) (hgroup : c.group = some g) (hg : g.Sound c.task)
    (hadm : c.heuristic.AdmissibleOnStates c.task) :
    Tracks c s fun x v read => ∃ trace, Follows c s g trace x v ∧ read = decodeFrom c s g trace where
  toSimulates := simulates h.toUnderway hgroup hg
  estimate := by
    rintro x y v read plan final cost ⟨trace, hf, -⟩ hy hrun hgoal
    obtain rfl := Option.some.inj (hf.state.symm.trans hy)
    exact hadm (g.isState_mapState hg hf.valid hf.isState) hrun hgoal

end Follows

theorem decode_plan_of_none (hgroup : c.group = none) (es : List Nat) :
    (s.decode c es).plan = s.operators es := by
  simp only [decode, hgroup]

/-- What a path decodes to depends on the record alone. -/
theorem SameRecord.decode_eq {s' : Search} (h : SameRecord s s') (es : List Nat) :
    s'.decode c es = s.decode c es := by
  have hfrom : ∀ g trace, decodeFrom c s' g trace es = decodeFrom c s g trace es := by
    intro g trace
    induction es generalizing trace with
    | nil => rfl
    | cons e es ih => simp only [decodeFrom, h.edges, h.stateOf?, ih]
  simp only [decode, operators, h.edges, hfrom]

/-- A walk to the sink decodes to a plan that costs what the walk costs. -/
theorem Recorded.planCost?_of_grouped (h : Recorded c s) (hc : c.Grouped) {es : List Nat}
    (hes : s.graph.Walk root es sink) :
    c.task.planCost? (s.decode c es).plan = some (s.graph.cost es) := by
  cases hgroup : c.group with
  | none =>
    rw [decode_plan_of_none hgroup]
    exact h.planCost?_of_walk hgroup hes
  | some g => exact h.planCost?_decode hgroup (hc g hgroup) hes

namespace Progress

/-- A plan is the decoding of a walk or runs into a waiting node of a low estimate. -/
theorem decoded_or_waits (h : Progress c s [] none) (hroot : (s.node root).status ≠ .unseen)
    (hadm : c.heuristic.Admissible c.task) (hc : c.Symmetric)
    (hplan : c.task.planCost? plan = some cost) :
    (∃ es, s.graph.Walk root es sink ∧ (s.decode c es).plan = plan ∧ s.graph.cost es = cost) ∨
    ∃ w, (s.node w).status = .waiting ∧ Cost.add (s.node w).cost (s.node w).estimate ≤ cost := by
  cases hgroup : c.group with
  | none =>
    refine (h.plan_recorded_or_waits hroot hgroup hadm hplan).imp_left ?_
    rintro ⟨es, hes, hops, hcost, -⟩
    exact ⟨es, hes, (decode_plan_of_none hgroup es).trans hops, hcost⟩
  | some g =>
    obtain ⟨hg, hall⟩ := hc g hgroup
    obtain ⟨final, hrun, hgoal⟩ := Task.planCost?_eq_some_iff.mp hplan
    rcases (Follows.tracks h hgroup hg hall).recorded_or_waits h
      ⟨_, Follows.start h.recorded hgroup, rfl⟩ (Int.le_refl 0) hrun hgoal hroot
      fun _ => h.root_cost with ⟨es, hes, hops, hcost, -⟩ | ⟨w, hw, hle⟩
    · exact .inl ⟨es, hes, (decode_plan hgroup es).trans hops, hcost⟩
    · exact .inr ⟨w, hw, by rwa [Int.zero_add] at hle⟩

/-- A plan that costs less than every estimate is the decoding of a walk. -/
theorem exists_decoded (h : Progress c s [] none) (hroot : (s.node root).status ≠ .unseen)
    (hadm : c.heuristic.Admissible c.task) (hc : c.Symmetric)
    (hplan : c.task.planCost? plan = some cost)
    (hlt : ∀ f, s.leastEstimate?.1 = some f → cost < f) :
    ∃ es, s.graph.Walk root es sink ∧ (s.decode c es).plan = plan ∧ s.graph.cost es = cost := by
  rcases h.decoded_or_waits hroot hadm hc hplan with hwalk | ⟨w, hw, hle⟩
  · exact hwalk
  · obtain ⟨f, hf, hfle⟩ := h.leastEstimate?_le hw
    have := hlt f hf
    omega

end Progress

/-- Once the sink is taken, the cheapest way to it costs as little as any plan. -/
theorem Faultless.isLeast_optimalCost? (h : Faultless c s) (hc : c.Symmetric)
    (hreopen : c.reopen = true) (hadm : c.heuristic.Admissible c.task)
    (hrange : (s.step c).1.graph.InRange root) {solved : Int}
    (hsolved : (s.step c).2 = .solved solved)
    (hcost : (s.step c).1.pathTree.optimalCost? = some cost) :
    IsLeast { cost | ∃ plan, c.task.planCost? plan = some cost } cost := by
  obtain ⟨hs, hroot⟩ := h.progress hreopen
  obtain ⟨hs', hgrows⟩ := step_recorded (c := c) hs.recorded
  obtain ⟨htop, ⟨fs, hfs, hleast⟩, hle⟩ := hs'.optimalCost?_spec hrange hcost
  have hedge : ∀ {e edge}, s.graph.edges[e]? = some edge →
      (s.step c).1.graph.edges[e]? = some edge := hgrows.edge
  have hkept : ∀ {es}, s.graph.Walk root es sink → cost ≤ s.graph.cost es := by
    intro es hes
    obtain ⟨hes', heq⟩ := hes.mono hedge
    exact heq ▸ hle es hes'
  obtain ⟨hsink, hprice, hmin⟩ := hs.sink_of_solved hsolved
  have hsolved_le : cost ≤ solved := by
    obtain ⟨es, hes, hwalk⟩ := hs.walk (.inl hsink)
    have := hkept hes
    omega
  refine ⟨⟨_, hleast ▸ hs'.planCost?_of_grouped hc.grouped hfs⟩, ?_⟩
  rintro total ⟨plan, hplan⟩
  rcases hs.decoded_or_waits hroot hadm hc hplan with ⟨es, hes, -, rfl⟩ | ⟨w, hw, hle⟩
  · exact hkept hes
  · exact Int.le_trans hsolved_le (Int.le_trans (hmin w hw) hle)

namespace Recorded

theorem isState_of_walk (h : Recorded c s) (hc : c.Grouped) {u : Nat} {es : List Nat}
    {y : State} (hes : s.graph.Walk u es v) (hx : s.stateOf? u = some x) (hstate : c.task.IsState x)
    (hy : s.stateOf? v = some y) : c.task.IsState y := by
  induction es generalizing u x with
  | nil =>
    obtain rfl := Graph.walk_nil_iff.mp hes
    exact Option.some.inj (hx.symm.trans hy) ▸ hstate
  | cons e es ih =>
    obtain ⟨edge, he, rfl, hrest⟩ := Graph.walk_cons_iff.mp hes
    obtain ⟨z, hz, hmeant⟩ := h.meant he
    obtain rfl := Option.some.inj (hz.symm.trans hx)
    cases hlabel : edge.label with
    | operator op =>
      rw [hlabel] at hmeant
      exact ih hrest hmeant.2.2 (hc.isState_canonical (hstate.apply op))
    | goal =>
      rw [hlabel] at hmeant
      rw [hmeant.2.2] at hrest
      obtain rfl := h.walk_sink hrest
      rw [← Graph.walk_nil_iff.mp hrest] at hy
      cases hy

/-- Every node but the sink holds a state of the task. -/
theorem isState (h : Recorded c s) (hc : c.Grouped) (hx : s.stateOf? v = some x) :
    c.task.IsState x := by
  obtain ⟨es, hes⟩ := h.reached hx
  exact h.isState_of_walk hc hes h.root_state (hc.isState_canonical c.task.isState_initial) hx

theorem cost_le (h : Recorded c s) {most : Int}
    (hmost : ∀ op, (c.task.operator op).cost ≤ most) {e : Nat} {edge : Edge}
    (he : s.edges[e]? = some edge) : edge.cost ≤ most := by
  obtain ⟨x, -, hmeant⟩ := h.meant he
  cases hlabel : edge.label with
  | operator op =>
    rw [hlabel] at hmeant
    exact hmeant.2.1 ▸ hmost op
  | goal =>
    rw [hlabel] at hmeant
    rw [hmeant.2.1]
    exact Int.le_trans (c.task.operator_cost_nonneg 0) (hmost 0)

theorem walk_cost_le (h : Recorded c s) {most : Int}
    (hmost : ∀ op, (c.task.operator op).cost ≤ most) {u : Nat} {es : List Nat}
    (hes : s.graph.Walk u es v) : s.graph.cost es ≤ (s.graph.sources es).length * most := by
  induction hes with
  | nil => simp
  | @cons e w edge es he _ ih =>
    have hcost := h.cost_le hmost he
    rw [Graph.cost_cons he, Graph.sources_cons he, List.length_cons, Int.natCast_add, Int.add_mul]
    omega

theorem exists_state_of_mem_sources (h : Recorded c s) {es : List Nat}
    (hv : v ∈ s.graph.sources es) : ∃ x, s.stateOf? v = some x := by
  obtain ⟨e, -, hedge⟩ := List.mem_filterMap.mp hv
  obtain ⟨edge, he, rfl⟩ := Option.map_eq_some_iff.mp hedge
  obtain ⟨x, hx, -⟩ := h.meant he
  exact ⟨x, hx⟩

/-- If no sum of as many costs as there are states leaves the range of costs, no walk needs to. -/
theorem inRange_of_states (h : Recorded c s) (hc : c.Symmetric) {most : Int}
    (hmost : ∀ op, (c.task.operator op).cost ≤ most)
    (hfit : c.task.stateLists.length * most ≤ Cost.top) : s.graph.InRange root := by
  intro e edge es he hes
  obtain ⟨fs, hfs, hnodup⟩ := hes.exists_nodup
  have hstate : ∀ v ∈ s.graph.sources fs ++ [edge.source], ∃ x, s.stateOf? v = some x := by
    intro v hv
    rcases List.mem_append.mp hv with hv | hv
    · exact h.exists_state_of_mem_sources hv
    · obtain ⟨x, hx, -⟩ := h.meant he
      exact ⟨x, List.mem_singleton.mp hv ▸ hx⟩
  -- The nodes of the walk are as many different states.
  have hcount : (s.graph.sources fs).length + 1 ≤ c.task.stateLists.length := by
    have hmap : ((s.graph.sources fs ++ [edge.source]).map
        fun v => (s.stateOf? v).map Array.toList).Nodup := by
      refine hnodup.map_on fun v hv w hw heq => ?_
      obtain ⟨x, hx⟩ := hstate v hv
      obtain ⟨y, hy⟩ := hstate w hw
      rw [hx, hy] at heq
      obtain rfl := Array.toList_inj.mp (Option.some.inj heq)
      exact stateOf?_injective hx hy
    have hsubset : ((s.graph.sources fs ++ [edge.source]).map
        fun v => (s.stateOf? v).map Array.toList) ⊆ c.task.stateLists.map some := by
      rintro _ hmem
      obtain ⟨v, hv, rfl⟩ := List.mem_map.mp hmem
      obtain ⟨x, hx⟩ := hstate v hv
      rw [hx]
      exact List.mem_map_of_mem (h.isState hc.grouped hx).mem_stateLists
    simpa using (hmap.subperm hsubset).length_le
  have hwalk := h.walk_cost_le hmost hfs
  have hcost := h.cost_le hmost he
  have hnonneg := Int.le_trans (c.task.operator_cost_nonneg 0) (hmost 0)
  have hle := Int.mul_le_mul_of_nonneg_right (Int.ofNat_le.mpr hcount) hnonneg
  rw [Int.natCast_add, Int.add_mul] at hle
  exact ⟨fs, hfs, by omega⟩

end Recorded

end Search

end RankedPlans
