import Mathlib.Algebra.Ring.Int.Defs
import RankedPlans.Proofs.Path.TreePath

/-! Walks as sidetracks. The table of a tree holds every edge between reachable nodes that is not the
tree edge of its target, and a walk from the root is given by those of its edges, each of which ends
above the start of the next one. -/

namespace RankedPlans

open ShortestPathTree

/-- A sidetrack of a graph and its tree. -/
def IsSidetrack (g : Graph) (t : ShortestPathTree) (s : Sidetrack) : Prop :=
  ∃ edge, g.edges[s.edge]? = some edge ∧ Sidetrack.ofEdge? t s.edge edge = some s

/-- Sidetracks that lead to a node one after the other, the last one first. -/
inductive SidetrackPath (g : Graph) (t : ShortestPathTree) : Nat → List Sidetrack → Prop
  | nil {v : Nat} {d : Int} : t.distance? v = some d → SidetrackPath g t v []
  | cons {v : Nat} {s : Sidetrack} {es : List Nat} {rest : List Sidetrack} : IsSidetrack g t s →
      t.Path g s.target es v → SidetrackPath g t s.source rest → SidetrackPath g t v (s :: rest)

namespace Sidetrack

theorem le_totalPreorder : TotalPreorder le where
  trans a b c hab hbc := by
    simp only [le, Bool.or_eq_true, Bool.and_eq_true, decide_eq_true_eq, beq_iff_eq] at *
    omega
  total a b := by
    simp only [le, Bool.or_eq_true, Bool.and_eq_true, decide_eq_true_eq, beq_iff_eq]
    omega

theorem delta_le_of_le {a b : Sidetrack} (h : le a b = true) : a.delta ≤ b.delta := by
  simp only [le, Bool.or_eq_true, Bool.and_eq_true, decide_eq_true_eq, beq_iff_eq] at h
  omega

/-- How much more a walk costs that takes some sidetracks. -/
def detour (l : List Sidetrack) : Int := (l.map Sidetrack.delta).sum

@[simp] theorem detour_nil : detour [] = 0 := rfl

@[simp] theorem detour_cons (s : Sidetrack) (l : List Sidetrack) :
    detour (s :: l) = s.delta + detour l := by
  simp [detour]

@[simp] theorem detour_append (l m : List Sidetrack) : detour (l ++ m) = detour l + detour m := by
  simp [detour]

theorem ofEdge?_eq_some_iff {t : ShortestPathTree} {e : Nat} {edge : Edge} {s : Sidetrack} :
    ofEdge? t e edge = some s ↔ ∃ near far, t.distance? edge.source = some near ∧
      t.distance? edge.target = some far ∧ t.parent? edge.target ≠ some e ∧
      s = ⟨e, edge.source, edge.target, Cost.add near edge.cost - far, near⟩ := by
  unfold ofEdge?
  cases t.distance? edge.source <;> cases t.distance? edge.target <;>
    by_cases hp : t.parent? edge.target = some e <;> simp [hp, eq_comm]

end Sidetrack

namespace IsSidetrack

variable {g : Graph} {t : ShortestPathTree} {s s' : Sidetrack}

theorem eq_of_edge (h : IsSidetrack g t s) (h' : IsSidetrack g t s') (he : s.edge = s'.edge) :
    s = s' := by
  obtain ⟨edge, hs, hof⟩ := h
  obtain ⟨edge', hs', hof'⟩ := h'
  rw [he] at hs hof
  obtain rfl := Option.some.inj (hs.symm.trans hs')
  exact Option.some.inj (hof.symm.trans hof')

/-- The edges decide the sidetracks. -/
theorem eq_of_map_edge {l l' : List Sidetrack} (h : ∀ s ∈ l, IsSidetrack g t s) (h' : ∀ s ∈ l', IsSidetrack g t s)
    (hedges : l.map Sidetrack.edge = l'.map Sidetrack.edge) : l = l' := by
  induction l generalizing l' with
  | nil => exact (List.map_eq_nil_iff.mp hedges.symm).symm
  | cons s l ih =>
    cases l' with
    | nil => cases hedges
    | cons s' l' =>
      rw [List.map_cons, List.map_cons, List.cons.injEq] at hedges
      rw [List.forall_mem_cons] at h h'
      rw [h.1.eq_of_edge h'.1 hedges.1, ih h.2 h'.2 hedges.2]

theorem not_parent (h : IsSidetrack g t s) : t.parent? s.target ≠ some s.edge := by
  obtain ⟨edge, -, hof⟩ := h
  obtain ⟨near, far, -, -, hp, hs⟩ := Sidetrack.ofEdge?_eq_some_iff.mp hof
  rw [hs]
  exact hp

/-- A sidetrack is an edge from a node to another, and its delta what it costs more than the tree. -/
theorem exists_edge (ht : g.IsShortestPathTree t) (hg : g.Priced t.root) (h : IsSidetrack g t s) :
    ∃ edge near far, g.edges[s.edge]? = some edge ∧ edge.source = s.source ∧
      edge.target = s.target ∧ t.distance? s.source = some near ∧ t.distance? s.target = some far ∧
      far + s.delta = near + edge.cost ∧ 0 ≤ s.delta := by
  obtain ⟨edge, he, hof⟩ := h
  obtain ⟨near, far, hnear, hfar, -, hs⟩ := Sidetrack.ofEdge?_eq_some_iff.mp hof
  obtain ⟨es, hes, hcost⟩ := ht.walk hnear
  obtain ⟨fs, hfs, htop⟩ := hg.inRange he hes
  obtain ⟨d, hd, hle⟩ := ht.distance_le hfs
  obtain rfl := Option.some.inj (hnear.symm.trans hd)
  have hnn := hg.nonneg he
  have hadd : Cost.add near edge.cost = near + edge.cost := by
    have := hg.cost_nonneg hes
    exact Cost.add_eq (by simp only [Cost.bottom, int64Min]; omega) (by omega)
  obtain ⟨d, hd, hle⟩ := ht.distance_le (Graph.walk_concat_iff.mpr ⟨edge, he, rfl, hes⟩)
  obtain rfl := Option.some.inj (hfar.symm.trans hd)
  rw [Graph.cost_concat he, hcost] at hle
  have hdelta : s.delta = near + edge.cost - far := by rw [hs, ← hadd]
  have hedge : s.edge = _ := congrArg Sidetrack.edge hs
  refine ⟨edge, near, far, he, ?_, ?_, ?_, ?_, by omega, by omega⟩ <;> rw [hs]
  · exact hnear
  · exact hfar

end IsSidetrack

namespace SidetrackTable

variable {g : Graph} {t : ShortestPathTree} {v : Nat}

/-- The sidetracks of a graph in the order of its edges. -/
def found (g : Graph) (t : ShortestPathTree) : List Sidetrack :=
  g.edges.toList.zipIdx.filterMap fun p => Sidetrack.ofEdge? t p.2 p.1

theorem mem_found_iff {s : Sidetrack} : s ∈ found g t ↔ IsSidetrack g t s := by
  unfold found IsSidetrack
  simp only [List.mem_filterMap, Prod.exists, List.mem_zipIdx_iff_getElem?, Array.getElem?_toList]
  constructor
  · rintro ⟨edge, e, he, hs⟩
    obtain ⟨near, far, -, -, -, rfl⟩ := Sidetrack.ofEdge?_eq_some_iff.mp hs
    exact ⟨edge, he, hs⟩
  · rintro ⟨edge, he, hs⟩
    exact ⟨edge, s.edge, he, hs⟩

theorem nodup_found (g : Graph) (t : ShortestPathTree) : (found g t).Nodup := by
  have numbers : (g.edges.toList.zipIdx.map Prod.snd).Nodup := by
    rw [List.zipIdx_map_snd]
    exact List.nodup_range'
  unfold found
  rw [List.nodup_iff_pairwise_ne, List.pairwise_filterMap]
  refine (List.pairwise_map.mp numbers).imp fun {a b} hne s hs s' hs' heq => hne ?_
  obtain ⟨_, _, -, -, -, rfl⟩ := Sidetrack.ofEdge?_eq_some_iff.mp hs
  obtain ⟨_, _, -, -, -, rfl⟩ := Sidetrack.ofEdge?_eq_some_iff.mp hs'
  exact congrArg Sidetrack.edge heq

theorem incoming_toList (hv : v < g.nodes) : ((ofTree g t).incoming v).toList =
    sortBy Sidetrack.le ((found g t).filter (·.target == v)).reverse := by
  have h := getElem?_foldl_modify Sidetrack.target (fun s (l : List Sidetrack) => s :: l)
    (found g t) (Array.replicate g.nodes []) v
  have hmap : (ofTree g t).lists[v]? = (((found g t).foldl (fun xs s => xs.modify s.target (s :: ·))
    (Array.replicate g.nodes [])).map fun l => (sortBy Sidetrack.le l).toArray)[v]? := rfl
  rw [incoming, Array.getD_eq_getD_getElem?, hmap, Array.getElem?_map, h]
  simp [hv]

theorem lt_nodes_of_mem {s : Sidetrack} (h : s ∈ ((ofTree g t).incoming v).toList) :
    v < g.nodes := by
  have hsize : (ofTree g t).lists.size = g.nodes := by
    have fold : ∀ (l : List Sidetrack) (xs : Array (List Sidetrack)),
        (l.foldl (fun xs s => xs.modify s.target (s :: ·)) xs).size = xs.size := by
      intro l
      induction l with
      | nil => simp
      | cons s l ih => intro xs; rw [List.foldl_cons, ih, Array.size_modify]
    simp only [ofTree, Array.size_map]
    rw [fold, Array.size_replicate]
  by_contra hlt
  rw [incoming, Array.getD_eq_getD_getElem?, Array.getElem?_eq_none (by omega)] at h
  exact absurd h (List.not_mem_nil)

theorem mem_incoming_iff {s : Sidetrack} (hv : v < g.nodes) :
    s ∈ ((ofTree g t).incoming v).toList ↔ IsSidetrack g t s ∧ s.target = v := by
  rw [incoming_toList hv, (sortBy_perm _ _).mem_iff, List.mem_reverse, List.mem_filter, mem_found_iff,
    beq_iff_eq]

theorem nodup_incoming (hv : v < g.nodes) : ((ofTree g t).incoming v).toList.Nodup := by
  rw [incoming_toList hv, (sortBy_perm _ _).nodup_iff, (List.reverse_perm _).nodup_iff]
  exact (nodup_found g t).filter _

/-- The sidetracks into a node come in ascending order. -/
theorem pairwise_incoming (hv : v < g.nodes) :
    ((ofTree g t).incoming v).toList.Pairwise fun a b => Sidetrack.le a b = true := by
  rw [incoming_toList hv]
  exact sortBy_pairwise Sidetrack.le_totalPreorder.trans Sidetrack.le_totalPreorder.total _

end SidetrackTable

/-- Whether an edge is not the tree edge of its target. -/
def ShortestPathTree.leaves (g : Graph) (t : ShortestPathTree) (e : Nat) : Bool :=
  g.edges[e]?.any fun edge => t.parent? edge.target != some e

theorem ShortestPathTree.Path.filter_leaves {g : Graph} {t : ShortestPathTree} {u v : Nat}
    {es : List Nat} (ht : g.IsShortestPathTree t) (h : t.Path g u es v) :
    es.filter (t.leaves g) = [] := by
  induction h with
  | nil => rfl
  | snoc hp he _ ih =>
    obtain ⟨rfl, -⟩ := ht.source_of_parent hp he
    rw [List.filter_append, ih]
    simp [leaves, he, hp]

namespace SidetrackPath

variable {g : Graph} {t : ShortestPathTree} {v : Nat} {l l' : List Sidetrack}

theorem isSidetrack (h : SidetrackPath g t v l) : ∀ s ∈ l, IsSidetrack g t s := by
  induction h with
  | nil => simp
  | cons hs _ _ ih => exact List.forall_mem_cons.mpr ⟨hs, ih⟩

theorem detour_nonneg (ht : g.IsShortestPathTree t) (hg : g.Priced t.root)
    (h : SidetrackPath g t v l) : 0 ≤ Sidetrack.detour l := by
  induction h with
  | nil => exact Int.le_refl 0
  | cons hs _ _ ih =>
    obtain ⟨_, _, _, -, -, -, -, -, -, hnn⟩ := hs.exists_edge ht hg
    rw [Sidetrack.detour_cons]
    omega

/-- The walk of some sidetracks, and what it costs. -/
theorem walk (ht : g.IsShortestPathTree t) (hg : g.Priced t.root) (h : SidetrackPath g t v l) :
    g.Walk t.root (t.pathTo g v l) v ∧
      ∃ d, t.distance? v = some d ∧ g.cost (t.pathTo g v l) = d + Sidetrack.detour l := by
  induction h with
  | @nil v d hd =>
    obtain ⟨k, hk⟩ := ht.chain hd
    obtain ⟨es, hes⟩ := Graph.IsShortestPathTree.exists_path hk
    have hcost := hes.cost ht ht.root_distance
    rw [ShortestPathTree.pathTo, ht.pathFrom_eq hg ht.root_distance hes]
    exact ⟨hes.walk ht, _, hcost, by simp⟩
  | @cons v s es rest hs hes _ ih =>
    obtain ⟨hwalk, near, hnear, hcost⟩ := ih
    obtain ⟨edge, near', far, he, hsrc, htar, hnear', hfar, hdelta, -⟩ := hs.exists_edge ht hg
    obtain rfl := Option.some.inj (hnear.symm.trans hnear')
    rw [ShortestPathTree.pathTo, ht.pathFrom_eq hg hfar hes]
    refine ⟨hwalk.append (Graph.walk_cons_iff.mpr ⟨edge, he, hsrc, htar ▸ hes.walk ht⟩), _,
      hes.cost ht hfar, ?_⟩
    rw [Graph.cost_append, Graph.cost_cons he, hcost, Sidetrack.detour_cons]
    omega

/-- Behind the same sidetracks the walk can follow a tree edge. -/
theorem follow (ht : g.IsShortestPathTree t) (hg : g.Priced t.root) {e : Nat} {edge : Edge}
    (hp : t.parent? v = some e) (he : g.edges[e]? = some edge)
    (h : SidetrackPath g t edge.source l) :
    SidetrackPath g t v l ∧ t.pathTo g v l = t.pathTo g edge.source l ++ [e] := by
  obtain ⟨-, d, hd, hv⟩ := ht.source_of_parent hp he
  cases h with
  | nil =>
    obtain ⟨k, hk⟩ := ht.chain hd
    obtain ⟨es, hes⟩ := Graph.IsShortestPathTree.exists_path hk
    refine ⟨.nil hv, ?_⟩
    simp only [ShortestPathTree.pathTo]
    rw [ht.pathFrom_eq hg ht.root_distance hes,
      ht.pathFrom_eq hg ht.root_distance (.snoc hp he hes)]
  | cons hs hes hrest =>
    obtain ⟨-, -, far, -, -, -, -, hfar, -, -⟩ := hs.exists_edge ht hg
    refine ⟨.cons hs (.snoc hp he hes) hrest, ?_⟩
    simp only [ShortestPathTree.pathTo]
    rw [ht.pathFrom_eq hg hfar hes, ht.pathFrom_eq hg hfar (.snoc hp he hes)]
    simp

/-- Every walk from the root is the walk of some sidetracks. -/
theorem exists_of_walk (ht : g.IsShortestPathTree t) (hg : g.Priced t.root) {es : List Nat}
    (h : g.Walk t.root es v) : ∃ l, SidetrackPath g t v l ∧ t.pathTo g v l = es := by
  induction es using List.reverseRecOn generalizing v with
  | nil =>
    obtain rfl := Graph.walk_nil_iff.mp h
    refine ⟨[], .nil ht.root_distance, ?_⟩
    rw [ShortestPathTree.pathTo, ht.pathFrom_eq hg ht.root_distance .nil]
  | append_singleton es e ih =>
    obtain ⟨edge, he, rfl, hes⟩ := Graph.walk_concat_iff.mp h
    obtain ⟨l, hl, rfl⟩ := ih hes
    by_cases hp : t.parent? edge.target = some e
    · exact ⟨l, hl.follow ht hg hp he⟩
    · obtain ⟨near, hnear, -⟩ := ht.distance_le hes
      obtain ⟨far, hfar, -⟩ := ht.distance_le h
      let s : Sidetrack := ⟨e, edge.source, edge.target, Cost.add near edge.cost - far, near⟩
      have hs : IsSidetrack g t s :=
        ⟨edge, he, Sidetrack.ofEdge?_eq_some_iff.mpr ⟨near, far, hnear, hfar, hp, rfl⟩⟩
      refine ⟨s :: l, .cons hs .nil hl, ?_⟩
      rw [ShortestPathTree.pathTo, ht.pathFrom_eq hg hfar .nil]

theorem filter_leaves (ht : g.IsShortestPathTree t) (hg : g.Priced t.root)
    (h : SidetrackPath g t v l) :
    (t.pathTo g v l).filter (t.leaves g) = (l.map Sidetrack.edge).reverse := by
  induction h with
  | @nil v d hd =>
    obtain ⟨k, hk⟩ := ht.chain hd
    obtain ⟨es, hes⟩ := Graph.IsShortestPathTree.exists_path hk
    rw [ShortestPathTree.pathTo, ht.pathFrom_eq hg ht.root_distance hes, hes.filter_leaves ht]
    rfl
  | @cons v s es rest hs hes _ ih =>
    obtain ⟨edge, -, far, he, -, htar, -, hfar, -, -⟩ := hs.exists_edge ht hg
    have hleaves : t.leaves g s.edge = true := by
      have := hs.not_parent
      simpa [ShortestPathTree.leaves, he, htar] using this
    rw [ShortestPathTree.pathTo, ht.pathFrom_eq hg hfar hes, List.filter_append, ih,
      List.filter_cons_of_pos hleaves, hes.filter_leaves ht]
    simp

/-- The walk decides the sidetracks. -/
theorem pathTo_injective (ht : g.IsShortestPathTree t) (hg : g.Priced t.root)
    (h : SidetrackPath g t v l) (h' : SidetrackPath g t v l')
    (heq : t.pathTo g v l = t.pathTo g v l') : l = l' := by
  have hedges := congrArg (List.filter (t.leaves g)) heq
  rw [h.filter_leaves ht hg, h'.filter_leaves ht hg] at hedges
  exact IsSidetrack.eq_of_map_edge h.isSidetrack h'.isSidetrack (List.reverse_injective hedges)

end SidetrackPath

end RankedPlans
