import Mathlib.Data.List.Nodup
import RankedPlans.Proofs.Graph.ShortestPaths
import RankedPlans.Proofs.Search.Certificate

/-! The recorded graph as a graph of priced edges, and its cheapest way to the sink. -/

namespace RankedPlans

/-- An edge out of a node that can be reached fits, behind some walk to that node, into the range of
costs. -/
def Graph.InRange (g : Graph) (root : Nat) : Prop :=
  ∀ ⦃e : Nat⦄ ⦃edge : Edge⦄ ⦃es : List Nat⦄, g.edges[e]? = some edge → g.Walk root es edge.source →
    ∃ fs, g.Walk root fs edge.source ∧ g.cost fs + edge.cost ≤ Cost.top

/-- A run costs no more than fits into the range of costs, unless it repeats a state before its last
operator. -/
def Task.CostsFit (t : Task) : Prop :=
  ∀ plan x cost, t.run? t.initial plan = some (x, cost) → (t.visited t.initial plan).Nodup →
    cost ≤ Cost.top

namespace Search

variable {c : SearchSetting} {s : Search} {es : List Nat}

/-- The tree of cheapest ways from the root. -/
def pathTree (s : Search) : ShortestPathTree :=
  s.graph.shortestPathTree root sink

namespace Recorded

theorem priced (h : Recorded c s) (hrange : s.graph.InRange root) : s.graph.Priced root where
  root_lt := lt_nodes_of_stateOf? h.size_eq h.root_state
  source_lt he := by
    obtain ⟨x, hx, -⟩ := h.meant he
    exact lt_nodes_of_stateOf? h.size_eq hx
  target_lt he := h.target_lt he
  nonneg he := h.cost_nonneg he
  inRange he hes := hrange he hes

theorem pathTree_spec (h : Recorded c s) (hrange : s.graph.InRange root) :
    s.graph.IsShortestPathTree s.pathTree :=
  Graph.shortestPathTree_isShortestPathTree (h.priced hrange) sink

/-- A walk between states spells a run through the states of its nodes. -/
theorem run?_of_walk_state (h : Recorded c s) (hgroup : c.group = none) {v w : Nat} {x y : State}
    (hes : s.graph.Walk v es w) (hx : s.stateOf? v = some x) (hy : s.stateOf? w = some y) :
    c.task.run? x (s.operators es) = some (y, s.graph.cost es) ∧
      (c.task.visited x (s.operators es)).map some = (s.graph.sources es).map s.stateOf? := by
  induction es generalizing v x with
  | nil =>
    obtain rfl := Graph.walk_nil_iff.mp hes
    obtain rfl := Option.some.inj (hx.symm.trans hy)
    exact ⟨rfl, rfl⟩
  | cons e es ih =>
    obtain ⟨edge, he, rfl, hrest⟩ := Graph.walk_cons_iff.mp hes
    obtain ⟨z, hz, hmeant⟩ := h.meant he
    obtain rfl := Option.some.inj (hz.symm.trans hx)
    cases hlabel : edge.label with
    | operator op =>
      rw [hlabel] at hmeant
      obtain ⟨hop, hcost, htarget⟩ := hmeant
      rw [canonical_of_none hgroup] at htarget
      obtain ⟨hrun, hvisited⟩ := ih hrest htarget
      rw [operators_operator he hlabel]
      refine ⟨Task.run?_cons_eq_some_iff.mpr ⟨hop, _, hrun, by rw [Graph.cost_cons he, hcost]⟩, ?_⟩
      rw [Graph.sources_cons he, Task.visited, List.map_cons, List.map_cons, hvisited, hz]
    | goal =>
      rw [hlabel] at hmeant
      rw [hmeant.2.2] at hrest
      obtain rfl := h.walk_sink hrest
      rw [← Graph.walk_nil_iff.mp hrest] at hy
      cases hy

/-- In a task whose runs without repetition are in the range of costs, so is the recorded graph. -/
theorem inRange (h : Recorded c s) (hgroup : c.group = none) (hfit : c.task.CostsFit) :
    s.graph.InRange root := by
  intro e edge es he hes
  obtain ⟨fs, hfs, hnodup⟩ := hes.exists_nodup
  obtain ⟨y, hy, hmeant⟩ := h.meant he
  have hroot := h.initial_state hgroup
  obtain ⟨hrun, hvisited⟩ := h.run?_of_walk_state hgroup hfs hroot hy
  have hstates : (c.task.visited c.task.initial (s.operators fs) ++ [y]).map some =
      (s.graph.sources fs ++ [edge.source]).map s.stateOf? := by
    rw [List.map_append, List.map_append, hvisited, List.map_singleton, List.map_singleton, hy]
  have hdistinct : (c.task.visited c.task.initial (s.operators fs) ++ [y]).Nodup := by
    refine List.Nodup.of_map some (hstates ▸ hnodup.map_on fun v hv w hw heq => ?_)
    obtain ⟨x, -, hx⟩ := List.mem_map.mp (hstates ▸ List.mem_map_of_mem hv)
    exact stateOf?_injective hx.symm (heq ▸ hx.symm)
  refine ⟨fs, hfs, ?_⟩
  cases hlabel : edge.label with
  | operator op =>
    rw [hlabel] at hmeant
    rw [hmeant.2.1]
    exact hfit _ _ _ (Task.run?_concat hrun hmeant.1) (Task.visited_concat hrun op ▸ hdistinct)
  | goal =>
    rw [hlabel] at hmeant
    rw [hmeant.2.1, Int.add_zero]
    exact hfit _ _ _ hrun (List.nodup_append.mp hdistinct).1

/-- The cheapest way to the sink is in the range of costs, and no walk is cheaper. -/
theorem optimalCost?_spec (h : Recorded c s) (hrange : s.graph.InRange root) {cost : Int}
    (hcost : s.pathTree.optimalCost? = some cost) :
    cost ≤ Cost.top ∧ (∃ es, s.graph.Walk root es sink ∧ s.graph.cost es = cost) ∧
      ∀ es, s.graph.Walk root es sink → cost ≤ s.graph.cost es := by
  have ht := h.pathTree_spec hrange
  have hle : ∀ es, s.graph.Walk root es sink → cost ≤ s.graph.cost es := by
    intro es hes
    obtain ⟨d, hd, hle⟩ := ht.distance_le hes
    obtain rfl := Option.some.inj (hd.symm.trans hcost)
    exact hle
  obtain ⟨es, hes, htotal⟩ := ht.walk hcost
  refine ⟨?_, ⟨es, hes, htotal⟩, hle⟩
  rcases List.eq_nil_or_concat es with rfl | ⟨before, e, rfl⟩
  · cases Graph.walk_nil_iff.mp hes
  · rw [List.concat_eq_append] at hes
    obtain ⟨edge, he, htarget, hbefore⟩ := Graph.walk_concat_iff.mp hes
    obtain ⟨fs, hfs, hfit⟩ := hrange he hbefore
    have := hle (fs ++ [e]) (Graph.walk_concat_iff.mpr ⟨edge, he, htarget, hfs⟩)
    rw [Graph.cost_concat he] at this
    omega

end Recorded

end Search

end RankedPlans
