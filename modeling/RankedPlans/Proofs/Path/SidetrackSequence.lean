import Mathlib.Data.List.Chain
import RankedPlans.Proofs.Path.ShortestWalk
import RankedPlans.Proofs.Path.Sidetrack

/-! Walks from the root and sequences of sidetracks stand for each other. The sidetracks of a walk are its edges that
are not tree edges. Between them it follows the tree, so they determine it and say how much more than the distance it
costs, and every sequence of sidetracks occurs in which each one ends above the start of the next. -/

namespace RankedPlans

namespace ShortestPathTree

/-- A node is the other one or above it in the tree. -/
def Above (g : Graph) (t : ShortestPathTree) (u v : Nat) : Prop :=
  ∃ es, t.Path g u es v

/-- Sidetracks each of which ends above the start of the next one, and the last one above a node. -/
structure Chained (g : Graph) (t : ShortestPathTree) (l : List Sidetrack) (v : Nat) : Prop where
  above : l.IsChain fun a b => t.Above g a.target b.source
  last : ∀ s ∈ l.getLast?, t.Above g s.target v

/-- The sidetracks among some edges. -/
def sidetracks (g : Graph) (t : ShortestPathTree) (es : List Nat) : List Sidetrack :=
  es.filterMap fun e => g.edges[e]?.bind (Sidetrack.ofEdge? t e)

variable {g : Graph} {t : ShortestPathTree} {u v : Nat} {es fs : List Nat} {l : List Sidetrack} {s : Sidetrack}

theorem chained_nil : t.Chained g [] v :=
  ⟨.nil, by simp⟩

theorem chained_concat_iff : t.Chained g (l ++ [s]) v ↔ t.Chained g l s.source ∧ t.Above g s.target v := by
  constructor
  · rintro ⟨habove, hlast⟩
    obtain ⟨hl, -, hs⟩ := List.isChain_append.mp habove
    exact ⟨⟨hl, fun a ha => hs a ha s rfl⟩, hlast s List.getLast?_concat⟩
  · rintro ⟨⟨habove, hlast⟩, hs⟩
    refine ⟨List.isChain_append.mpr ⟨habove, .singleton s, fun a ha b hb => ?_⟩, fun a ha => ?_⟩
    · obtain rfl := Option.some.inj hb
      exact hlast a ha
    · obtain rfl := Option.some.inj (List.getLast?_concat.symm.trans ha)
      exact hs

theorem sidetracks_append (g : Graph) (t : ShortestPathTree) (es fs : List Nat) :
    t.sidetracks g (es ++ fs) = t.sidetracks g es ++ t.sidetracks g fs :=
  List.filterMap_append

theorem Path.sidetracks (ht : g.IsShortestPathTree t) (h : t.Path g u es v) : t.sidetracks g es = [] := by
  induction h with
  | nil => rfl
  | @snoc es e v edge hp he _ ih =>
    obtain ⟨rfl, -⟩ := ht.source_of_parent hp he
    have hnone : Sidetrack.ofEdge? t e edge = none := by
      refine Option.eq_none_iff_forall_ne_some.mpr fun s hs => ?_
      obtain ⟨_, _, -, -, hnot, -⟩ := Sidetrack.ofEdge?_eq_some_iff.mp hs
      exact hnot hp
    rw [sidetracks_append, ih]
    simp [ShortestPathTree.sidetracks, he, hnone]

end ShortestPathTree

namespace SidetrackPath

variable {g : Graph} {t : ShortestPathTree} {v : Nat} {d : Int} {l : List Sidetrack}

/-- The sidetracks on the way to a node are those that are chained up to it. -/
theorem reverse_iff (ht : g.IsShortestPathTree t) (hg : g.Priced t.root) (hv : t.distance? v = some d) :
    SidetrackPath g t v l.reverse ↔ (∀ s ∈ l, IsSidetrack g t s) ∧ t.Chained g l v := by
  -- from the end, since a path of sidetracks has the last one first
  induction l using List.reverseRecOn generalizing v d with
  | nil => exact iff_of_true (.nil hv) ⟨by simp, ShortestPathTree.chained_nil⟩
  | append_singleton l s ih =>
    rw [List.reverse_concat, ShortestPathTree.chained_concat_iff, List.forall_mem_append, List.forall_mem_singleton]
    constructor
    · rintro (_ | ⟨hs, hes, hl⟩)
      obtain ⟨_, near, _, -, -, -, hnear, -⟩ := hs.exists_edge ht hg
      obtain ⟨hall, hchained⟩ := (ih hnear).mp hl
      exact ⟨⟨hall, hs⟩, hchained, _, hes⟩
    · rintro ⟨⟨hall, hs⟩, hchained, es, hes⟩
      obtain ⟨_, near, _, -, -, -, hnear, -⟩ := hs.exists_edge ht hg
      exact .cons hs hes ((ih hnear).mpr ⟨hall, hchained⟩)

/-- The walk of some sidetracks takes these and no others. -/
theorem sidetracks_pathTo (ht : g.IsShortestPathTree t) (hg : g.Priced t.root) (h : SidetrackPath g t v l) :
    t.sidetracks g (t.pathTo g v l) = l.reverse := by
  induction h with
  | @nil v d hd =>
    obtain ⟨k, hk⟩ := ht.chain hd
    obtain ⟨es, hes⟩ := Graph.IsShortestPathTree.exists_path hk
    rw [ShortestPathTree.pathTo, ht.pathFrom_eq hg ht.root_distance hes, hes.sidetracks ht]
    rfl
  | @cons v s es rest hs hes _ ih =>
    obtain ⟨edge, he, hof⟩ := id hs
    obtain ⟨_, _, far, -, -, -, -, hfar, -, -⟩ := hs.exists_edge ht hg
    have hcons : t.sidetracks g (s.edge :: es) = [s] := by
      have htree := hes.sidetracks ht
      rw [ShortestPathTree.sidetracks] at htree ⊢
      rw [List.filterMap_cons, he, Option.bind_some, hof, htree]
    rw [ShortestPathTree.pathTo, ht.pathFrom_eq hg hfar hes, ShortestPathTree.sidetracks_append, ih, hcons,
      List.reverse_cons]

theorem detour_reverse (l : List Sidetrack) : Sidetrack.detour l.reverse = Sidetrack.detour l := by
  rw [Sidetrack.detour, List.map_reverse, List.sum_reverse]
  rfl

/-- A walk from the root is the one of its sidetracks, which are its edges that are not tree edges and say what it
costs. -/
theorem of_walk (ht : g.IsShortestPathTree t) (hg : g.Priced t.root) {es : List Nat} (h : g.Walk t.root es v) :
    SidetrackPath g t v (t.sidetracks g es).reverse ∧
      (t.sidetracks g es).map Sidetrack.edge = es.filter (t.leaves g) ∧
      t.pathTo g v (t.sidetracks g es).reverse = es ∧
      ∃ d, t.distance? v = some d ∧ g.cost es = d + Sidetrack.detour (t.sidetracks g es) := by
  obtain ⟨l, hl, rfl⟩ := exists_of_walk ht hg h
  obtain ⟨-, hcost⟩ := hl.walk ht hg
  rw [hl.sidetracks_pathTo ht hg, List.reverse_reverse, hl.filter_leaves ht hg, detour_reverse, List.map_reverse]
  exact ⟨hl, rfl, rfl, hcost⟩

end SidetrackPath

theorem Sidetrack.edge_eq_of_le_of_le {a b : Sidetrack} (h : le a b = true) (h' : le b a = true) : a.edge = b.edge := by
  simp only [le, Bool.or_eq_true, Bool.and_eq_true, decide_eq_true_eq, beq_iff_eq] at h h'
  omega

variable {g : Graph} {t : ShortestPathTree} {s : Sidetrack} {v : Nat}

/-- The sidetracks are the edges between reachable nodes that are not the tree edge of their target. -/
theorem isSidetrack_iff (ht : g.IsShortestPathTree t) (hg : g.Priced t.root) : IsSidetrack g t s ↔
    ∃ edge near far, g.edges[s.edge]? = some edge ∧ t.parent? edge.target ≠ some s.edge ∧
      t.distance? edge.source = some near ∧ t.distance? edge.target = some far ∧
      s = ⟨s.edge, edge.source, edge.target, near + edge.cost - far, near⟩ := by
  -- the bounded sum in the table is the sum
  have hexact {e : Nat} {edge : Edge} {near far : Int}
      (hs : IsSidetrack g t ⟨e, edge.source, edge.target, Cost.add near edge.cost - far, near⟩)
      (he : g.edges[e]? = some edge) (hnear : t.distance? edge.source = some near)
      (hfar : t.distance? edge.target = some far) : Cost.add near edge.cost = near + edge.cost := by
    obtain ⟨_, _, _, he', -, -, hnear', hfar', hdelta, -⟩ := hs.exists_edge ht hg
    obtain rfl := Option.some.inj (he'.symm.trans he)
    obtain rfl := Option.some.inj (hnear'.symm.trans hnear)
    obtain rfl := Option.some.inj (hfar'.symm.trans hfar)
    simp only at hdelta
    omega
  constructor
  · intro hs
    obtain ⟨edge, he, hof⟩ := id hs
    obtain ⟨near, far, hnear, hfar, hnot, heq⟩ := Sidetrack.ofEdge?_eq_some_iff.mp hof
    refine ⟨edge, near, far, he, hnot, hnear, hfar, ?_⟩
    rw [← hexact (heq ▸ hs) he hnear hfar]
    exact heq
  · rintro ⟨edge, near, far, he, hnot, hnear, hfar, heq⟩
    have hs : IsSidetrack g t ⟨s.edge, edge.source, edge.target, Cost.add near edge.cost - far, near⟩ :=
      ⟨edge, he, Sidetrack.ofEdge?_eq_some_iff.mpr ⟨near, far, hnear, hfar, hnot, rfl⟩⟩
    rw [heq, ← hexact hs he hnear hfar]
    exact hs

namespace SidetrackTable

/-- The table has each sidetrack at its target and nothing else. -/
theorem mem_toList_incoming_iff (ht : g.IsShortestPathTree t) (hg : g.Priced t.root) :
    s ∈ ((ofTree g t).incoming v).toList ↔ IsSidetrack g t s ∧ s.target = v := by
  refine ⟨fun hs => (mem_incoming_iff (lt_nodes_of_mem hs)).mp hs, fun hs => (mem_incoming_iff ?_).mpr hs⟩
  obtain ⟨edge, _, _, he, -, htarget, -⟩ := hs.1.exists_edge ht hg
  exact hs.2 ▸ htarget ▸ hg.target_lt he

/-- The sidetracks into a node come in strictly ascending order, each edge once. -/
theorem pairwise_lt_incoming (g : Graph) (t : ShortestPathTree) (v : Nat) : ((ofTree g t).incoming v).toList.Pairwise
    fun a b => Sidetrack.le a b = true ∧ Sidetrack.le b a = false ∧ a.edge ≠ b.edge := by
  rcases Nat.lt_or_ge v g.nodes with hv | hv
  · refine ((pairwise_incoming hv).and (nodup_incoming hv)).imp_of_mem fun {a b} ha hb h => ?_
    have hne : a.edge ≠ b.edge := fun heq =>
      h.2 (((mem_incoming_iff hv).mp ha).1.eq_of_edge ((mem_incoming_iff hv).mp hb).1 heq)
    exact ⟨h.1, Bool.eq_false_iff.mpr fun hle => hne (Sidetrack.edge_eq_of_le_of_le h.1 hle), hne⟩
  · rw [List.eq_nil_iff_forall_not_mem.mpr fun s hs => Nat.not_lt.mpr hv (lt_nodes_of_mem hs)]
    exact .nil

end SidetrackTable

theorem IsSidetrack.delta_nonneg (hs : IsSidetrack g t s) (ht : g.IsShortestPathTree t) (hg : g.Priced t.root) :
    0 ≤ s.delta := by
  obtain ⟨_, _, _, -, -, -, -, -, -, hnonneg⟩ := hs.exists_edge ht hg
  exact hnonneg

/-- A walk is determined by its edges that are not tree edges. -/
theorem Graph.IsShortestPathTree.walk_unique (ht : g.IsShortestPathTree t) (hg : g.Priced t.root) {es fs : List Nat}
    (hes : g.Walk t.root es v) (hfs : g.Walk t.root fs v) (heq : es.filter (t.leaves g) = fs.filter (t.leaves g)) :
    es = fs := by
  obtain ⟨hpath, hedges, hwalk, -⟩ := SidetrackPath.of_walk ht hg hes
  obtain ⟨hpath', hedges', hwalk', -⟩ := SidetrackPath.of_walk ht hg hfs
  have hsame : t.sidetracks g es = t.sidetracks g fs :=
    IsSidetrack.eq_of_map_edge (fun s hs => hpath.isSidetrack s (List.mem_reverse.mpr hs))
      (fun s hs => hpath'.isSidetrack s (List.mem_reverse.mpr hs)) (hedges.trans (heq.trans hedges'.symm))
  rw [← hwalk, ← hwalk', hsame]

/-- The sequences of sidetracks of walks to a node that can be reached. -/
theorem Graph.IsShortestPathTree.exists_walk_iff (ht : g.IsShortestPathTree t) (hg : g.Priced t.root) {d : Int}
    (hv : t.distance? v = some d) {l : List Sidetrack} : (∃ es, g.Walk t.root es v ∧ t.sidetracks g es = l) ↔
      (∀ s ∈ l, IsSidetrack g t s) ∧ t.Chained g l v := by
  rw [← SidetrackPath.reverse_iff ht hg hv]
  constructor
  · rintro ⟨es, hes, rfl⟩
    exact (SidetrackPath.of_walk ht hg hes).1
  · intro h
    refine ⟨_, (h.walk ht hg).1, ?_⟩
    rw [h.sidetracks_pathTo ht hg, List.reverse_reverse]

/-- Walks from the root to a node and sequences of sidetracks stand for each other. -/
theorem Graph.walks_as_sidetracks {g : Graph} {root : Nat} (hg : g.Priced root) (sink : Nat) :
    let t := g.shortestPathTree root sink
    let table := SidetrackTable.ofTree g t
    (∀ v, (∃ d, t.distance? v = some d) ↔ ∃ es, g.Walk root es v) ∧
    (∀ v s, s ∈ (table.incoming v).toList ↔ ∃ edge near far, g.edges[s.edge]? = some edge ∧
      t.parent? v ≠ some s.edge ∧ t.distance? edge.source = some near ∧ t.distance? v = some far ∧ edge.target = v ∧
      s = ⟨s.edge, edge.source, v, near + edge.cost - far, near⟩) ∧
    (∀ v, ∀ s ∈ (table.incoming v).toList, 0 ≤ s.delta) ∧
    (∀ v, (table.incoming v).toList.Pairwise fun a b =>
      Sidetrack.le a b = true ∧ Sidetrack.le b a = false ∧ a.edge ≠ b.edge) ∧
    (∀ v es, g.Walk root es v → (t.sidetracks g es).map Sidetrack.edge = es.filter (t.leaves g) ∧
      t.pathTo g v (t.sidetracks g es).reverse = es ∧
      ∃ d, t.distance? v = some d ∧ g.cost es = d + ((t.sidetracks g es).map Sidetrack.delta).sum) ∧
    (∀ v es fs, g.Walk root es v → g.Walk root fs v → es.filter (t.leaves g) = fs.filter (t.leaves g) → es = fs) ∧
    ∀ v l, (∃ es, g.Walk root es v) → ((∃ es, g.Walk root es v ∧ t.sidetracks g es = l) ↔
      (∀ s ∈ l, s ∈ (table.incoming s.target).toList) ∧ t.Chained g l v) := by
  intro t table
  have ht : g.IsShortestPathTree t := g.shortestPathTree_isShortestPathTree hg sink
  have hreached (v : Nat) : (∃ d, t.distance? v = some d) ↔ ∃ es, g.Walk root es v :=
    ⟨fun ⟨d, hd⟩ => (ht.walk hd).imp fun es => And.left, fun ⟨es, hes⟩ => (ht.distance_le hes).imp fun d => And.left⟩
  have hmem (v : Nat) (s : Sidetrack) : s ∈ (table.incoming v).toList ↔ IsSidetrack g t s ∧ s.target = v :=
    SidetrackTable.mem_toList_incoming_iff ht hg
  refine ⟨hreached, ?mem, ?nonneg, SidetrackTable.pairwise_lt_incoming g t, ?cost, fun v es fs => ht.walk_unique hg,
    ?sequences⟩
  case mem =>
    intro v s
    rw [hmem, isSidetrack_iff ht hg]
    constructor
    · rintro ⟨⟨edge, near, far, he, hnot, hnear, hfar, heq⟩, rfl⟩
      have htarget : edge.target = s.target := (congrArg Sidetrack.target heq).symm
      rw [htarget] at hnot hfar heq
      exact ⟨edge, near, far, he, hnot, hnear, hfar, htarget, heq⟩
    · rintro ⟨edge, near, far, he, hnot, hnear, hfar, rfl, heq⟩
      exact ⟨⟨edge, near, far, he, hnot, hnear, hfar, heq⟩, congrArg Sidetrack.target heq⟩
  case nonneg =>
    intro v s hs
    exact ((hmem v s).mp hs).1.delta_nonneg ht hg
  case cost =>
    intro v es hes
    exact (SidetrackPath.of_walk ht hg hes).2
  case sequences =>
    intro v l hv
    obtain ⟨d, hd⟩ := (hreached v).mpr hv
    refine (ht.exists_walk_iff hg hd).trans (and_congr_left' (forall₂_congr fun s _ => ?_))
    exact (and_iff_left rfl).symm.trans (hmem s.target s).symm

/-- Going around the cycle twice takes its back edge twice, and this determines the walk. -/
theorem Graph.walks_as_sidetracks_freeCycle : freeCycle.Priced 0 ∧ freeCycle.Walk 0 [0, 1, 0, 1, 4] 2 ∧
    [0, 1, 0, 1, 4].filter ((freeCycle.shortestPathTree 0 2).leaves freeCycle) = [1, 1] ∧
    ∀ es, freeCycle.Walk 0 es 2 → es.filter ((freeCycle.shortestPathTree 0 2).leaves freeCycle) = [1, 1] →
      es = [0, 1, 0, 1, 4] := by
  have hwalk : freeCycle.Walk 0 [0, 1, 0, 1, 4] 2 :=
    walk_cons_iff.mpr ⟨_, rfl, rfl, walk_cons_iff.mpr ⟨_, rfl, rfl, walk_cons_iff.mpr ⟨_, rfl, rfl,
      walk_cons_iff.mpr ⟨_, rfl, rfl, walk_cons_iff.mpr ⟨_, rfl, rfl, .nil 2⟩⟩⟩⟩⟩
  have hleaves : [0, 1, 0, 1, 4].filter ((freeCycle.shortestPathTree 0 2).leaves freeCycle) = [1, 1] := by
    decide +kernel
  refine ⟨freeCycle_priced, hwalk, hleaves, fun es hes heq => ?_⟩
  obtain ⟨-, -, -, -, -, hunique, -⟩ := walks_as_sidetracks freeCycle_priced 2
  exact hunique 2 es _ hes hwalk (heq.trans hleaves.symm)

end RankedPlans
