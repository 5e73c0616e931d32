import Mathlib.Data.Int.Order.Basic
import Mathlib.Order.Bounds.Basic
import RankedPlans.Proofs.Path.TreePath

/-! A tree of shortest paths tells of every node whether there is a walk to it and what the cheapest one
costs, and its parent edges lead back to the root, also where edges that cost nothing form a cycle. -/

namespace RankedPlans

namespace Graph.IsShortestPathTree

variable {g : Graph} {t : ShortestPathTree} {v : Nat} {es : List Nat} {d : Int}

/-- Distances are the least costs of walks. -/
theorem distance?_eq_some_iff (ht : g.IsShortestPathTree t) :
    t.distance? v = some d ↔ IsLeast {c | ∃ es, g.Walk t.root es v ∧ g.cost es = c} d := by
  have isLeast : ∀ {d}, t.distance? v = some d →
      IsLeast {c | ∃ es, g.Walk t.root es v ∧ g.cost es = c} d := by
    intro d hd
    refine ⟨ht.walk hd, ?_⟩
    rintro _ ⟨es, hes, rfl⟩
    obtain ⟨d', hd', hle⟩ := ht.distance_le hes
    rwa [Option.some.inj (hd.symm.trans hd')]
  refine ⟨isLeast, fun hleast => ?_⟩
  obtain ⟨es, hes, -⟩ := hleast.1
  obtain ⟨d', hd', -⟩ := ht.distance_le hes
  rw [hd', (isLeast hd').unique hleast]

theorem distance?_eq_none_iff (ht : g.IsShortestPathTree t) :
    t.distance? v = none ↔ ∀ es, ¬g.Walk t.root es v := by
  constructor
  · intro hnone es hes
    obtain ⟨d, hd, -⟩ := ht.distance_le hes
    rw [hnone] at hd
    cases hd
  · intro hno
    cases hd : t.distance? v with
    | none => rfl
    | some d =>
      obtain ⟨es, hes, -⟩ := ht.walk hd
      exact absurd hes (hno es)

/-- The parent edge of a node is the last edge of a cheapest walk to it. -/
theorem exists_parent (ht : g.IsShortestPathTree t) (hes : g.Walk t.root es v) (hne : v ≠ t.root) :
    ∃ e edge d, t.parent? v = some e ∧ g.edges[e]? = some edge ∧ edge.target = v ∧
      t.distance? edge.source = some d ∧ t.distance? v = some (d + edge.cost) := by
  obtain ⟨_, hd, -⟩ := ht.distance_le hes
  obtain ⟨e, he⟩ := ht.parented hd hne
  obtain ⟨edge, d, hedge, htar, hsrc, hv⟩ := ht.parent he
  exact ⟨e, edge, d, he, hedge, htar, hsrc, hv⟩

end Graph.IsShortestPathTree

/-- The tree that is found from a root has the cost of a cheapest walk to each node, no distance where there
is no walk, and parent edges that end cheapest walks and lead from every node that can be reached up to the
root, past no node twice. -/
theorem Graph.shortestPathTree_exact {g : Graph} {root : Nat} (hg : g.Priced root) (sink : Nat) :
    let t := g.shortestPathTree root sink
    (∀ v d, t.distance? v = some d ↔ IsLeast {c | ∃ es, g.Walk root es v ∧ g.cost es = c} d) ∧
    (∀ v, t.distance? v = none ↔ ∀ es, ¬g.Walk root es v) ∧
    t.distance? root = some 0 ∧ t.parent? root = none ∧
    (∀ v es, g.Walk root es v → v ≠ root → ∃ e edge d, t.parent? v = some e ∧
      g.edges[e]? = some edge ∧ edge.target = v ∧ t.distance? edge.source = some d ∧
      t.distance? v = some (d + edge.cost)) ∧
    ∀ v es, g.Walk root es v → ∃ nodes, t.Ascent g v nodes ∧ nodes.Nodup := by
  intro t
  have ht : g.IsShortestPathTree t := g.shortestPathTree_isShortestPathTree hg sink
  refine ⟨fun v d => ht.distance?_eq_some_iff, fun v => ht.distance?_eq_none_iff, ht.root_distance,
    ht.root_parent, fun v es => ht.exists_parent, fun v es hes => ?_⟩
  obtain ⟨d, hd, -⟩ := ht.distance_le hes
  obtain ⟨k, hk⟩ := ht.chain hd
  obtain ⟨nodes, hascent, -, hnd, -⟩ := ht.exists_ascent hk
  exact ⟨nodes, hascent, hnd⟩

/-- Two nodes that can be exchanged for nothing, one of them with a loop, before a third one. -/
def Graph.freeCycle : Graph where
  nodes := 4
  edges := #[⟨0, 1, .operator 0, 0⟩, ⟨1, 0, .operator 1, 0⟩, ⟨1, 1, .operator 2, 0⟩, ⟨1, 2, .goal, 3⟩,
    ⟨0, 2, .goal, 3⟩]

theorem Graph.freeCycle_priced : freeCycle.Priced 0 := by
  have h : freeCycle.Walk 0 [0] 1 := walk_cons_iff.mpr ⟨_, rfl, rfl, .nil 1⟩
  refine .of_forall_mem (by decide) ?_
  simp only [freeCycle, List.forall_mem_cons]
  exact ⟨⟨by decide, by decide, by decide, [], .nil 0, by decide⟩,
    ⟨by decide, by decide, by decide, [0], h, by decide⟩,
    ⟨by decide, by decide, by decide, [0], h, by decide⟩,
    ⟨by decide, by decide, by decide, [0], h, by decide⟩,
    ⟨by decide, by decide, by decide, [], .nil 0, by decide⟩, by simp⟩

theorem Graph.shortestPathTree_exact_freeCycle : freeCycle.Priced 0 ∧ freeCycle.Walk 0 [0, 2, 3] 2 ∧
    (freeCycle.shortestPathTree 0 2).distances = #[some 0, some 0, some 3, none] ∧
    (freeCycle.shortestPathTree 0 2).parents = #[none, some 0, some 4, none] ∧
    ∃ nodes, (freeCycle.shortestPathTree 0 2).Ascent freeCycle 2 nodes ∧ nodes.Nodup := by
  have hwalk : freeCycle.Walk 0 [0, 2, 3] 2 :=
    walk_cons_iff.mpr ⟨_, rfl, rfl, walk_cons_iff.mpr ⟨_, rfl, rfl,
      walk_cons_iff.mpr ⟨_, rfl, rfl, .nil 2⟩⟩⟩
  exact ⟨freeCycle_priced, hwalk, by decide +kernel, by decide +kernel,
    (shortestPathTree_exact freeCycle_priced 2).2.2.2.2.2 2 _ hwalk⟩

end RankedPlans
