import Mathlib.Data.List.Nodup
import RankedPlans.Proofs.Path.SidetrackHeap

/-! What a pending path stands for: the paths that keep its sidetracks and go on with one that its place
in a heap leaves open. Its successors share out these paths, all but the one that it is itself. -/

namespace RankedPlans

/-- Sidetracks that lead from one node to another, the last one first. -/
inductive SidetrackLink (g : Graph) (t : ShortestPathTree) (v : Nat) : List Sidetrack → Nat → Prop
  | nil : SidetrackLink g t v [] v
  | snoc {kept : List Sidetrack} {u : Nat} {s : Sidetrack} {es : List Nat} :
      SidetrackLink g t v kept u → IsSidetrack g t s → t.Path g s.target es u →
      SidetrackLink g t v (kept ++ [s]) s.source

theorem SidetrackLink.append_iff {g : Graph} {t : ShortestPathTree} {u v : Nat}
    {kept rest : List Sidetrack} (h : SidetrackLink g t v kept u) :
    SidetrackPath g t v (kept ++ rest) ↔ SidetrackPath g t u rest := by
  induction h generalizing rest with
  | nil => rfl
  | snoc _ hs hes ih =>
    rw [List.append_assoc, List.singleton_append, ih]
    constructor
    · intro h
      cases h with
      | cons _ _ hrest => exact hrest
    · exact .cons hs hes

namespace SidetrackTable

/-- The sidetracks into the nodes of a heap. -/
def below (table : SidetrackTable) (heap : SidetrackHeap) : List Sidetrack :=
  heap.toList.flatMap fun p => (table.incoming p.2).toList

variable {g : Graph} {t : ShortestPathTree} {heap : SidetrackHeap}

theorem nodup_below (hnd : (heap.toList.map Prod.snd).Nodup) : ((ofTree g t).below heap).Nodup := by
  unfold below
  rw [List.nodup_flatMap]
  constructor
  · intro p _
    by_cases hv : p.2 < g.nodes
    · exact nodup_incoming hv
    · rw [List.eq_nil_iff_forall_not_mem.mpr fun s hs => hv (lt_nodes_of_mem hs)]
      exact List.nodup_nil
  · refine (List.pairwise_map.mp hnd).imp fun {p q} hne s hs hs' => hne ?_
    rw [← ((mem_incoming_iff (lt_nodes_of_mem hs)).mp hs).2,
      ((mem_incoming_iff (lt_nodes_of_mem hs')).mp hs').2]

/-- The first sidetrack into a node is the cheapest. -/
theorem first_le {first s : Sidetrack} {v : Nat} (hf : ((ofTree g t).incoming v)[0]? = some first)
    (hs : s ∈ ((ofTree g t).incoming v).toList) : Sidetrack.le first s = true := by
  have hpair := pairwise_incoming (t := t) (lt_nodes_of_mem hs)
  rw [← Array.getElem?_toList] at hf
  revert hpair hs hf
  cases ((ofTree g t).incoming v).toList with
  | nil => simp
  | cons a l =>
    simp only [List.getElem?_cons_zero, Option.some.injEq]
    rintro rfl hs hpair
    rcases List.mem_cons.mp hs with rfl | hs
    · exact Sidetrack.le_totalPreorder.refl s
    · exact (List.pairwise_cons.mp hpair).1 s hs

end SidetrackTable

namespace PendingPath

/-- The further sidetrack of a pending path. -/
def last? (table : SidetrackTable) (path : PendingPath) : Option Sidetrack :=
  match path.heap with
  | .nil => none
  | .node _ _ _ owner _ _ => (table.incoming owner)[path.position]?

/-- The sidetracks that may take the place of the further one. At a first position these are all
sidetracks of the heap. -/
def pool (table : SidetrackTable) (path : PendingPath) : List Sidetrack :=
  match path.heap with
  | .nil => []
  | .node _ _ _ owner left right => (table.incoming owner).toList.drop path.position ++
      if path.position = 0 then table.below left ++ table.below right else []

/-- The paths, given by their sidetracks, that come from a pending path sooner or later. -/
def Leads (g : Graph) (t : ShortestPathTree) (path : PendingPath) (l : List Sidetrack) : Prop :=
  ∃ s rest, l = path.kept ++ s :: rest ∧ s ∈ path.pool (.ofTree g t) ∧
    SidetrackPath g t s.source rest

/-- The kept sidetracks lead to a node above which all nodes of the heap lie, and the detour is the one
of the path itself. -/
structure Valid (g : Graph) (t : ShortestPathTree) (v : Nat) (path : PendingPath) : Prop where
  ordered : path.heap.Ordered Sidetrack.le
  nodup : (path.heap.toList.map Prod.snd).Nodup
  link : ∃ u, SidetrackLink g t v path.kept u ∧ ∀ first w, (first, w) ∈ path.heap.toList →
    (∃ es, t.Path g w es u) ∧ ((SidetrackTable.ofTree g t).incoming w)[0]? = some first
  last : ∃ last, path.last? (.ofTree g t) = some last ∧
    path.detour = Sidetrack.detour path.kept + last.delta

/-- The path that goes on with the sidetrack at the top of a heap. -/
def top? (kept : List Sidetrack) (detour : Int) (heap : SidetrackHeap) : Option PendingPath :=
  heap.key?.map fun top => ⟨kept, heap, 0, detour + top.delta⟩

/-- The path that goes on with the next sidetrack of its list. -/
def next? (table : SidetrackTable) (path : PendingPath) (base : Int) : Option PendingPath :=
  (last? table { path with position := path.position + 1 }).map fun next =>
    { path with position := path.position + 1, detour := base + next.delta }

variable {g : Graph} {t : ShortestPathTree} {v : Nat} {path : PendingPath} {s last : Sidetrack}

theorem pool_eq_below (h : path.position = 0) (table : SidetrackTable) :
    path.pool table = table.below path.heap := by
  unfold pool
  cases path.heap with
  | nil => rfl
  | node serial rank key owner left right =>
    simp [h, SidetrackTable.below, LeftistHeap.toList]

theorem mem_pool (hs : s ∈ path.pool (.ofTree g t)) : ∃ first w, (first, w) ∈ path.heap.toList ∧
    s ∈ ((SidetrackTable.ofTree g t).incoming w).toList := by
  unfold pool at hs
  cases hheap : path.heap with
  | nil => simp [hheap] at hs
  | node serial rank key owner left right =>
    simp only [hheap] at hs
    have below : ∀ {heap : SidetrackHeap}, s ∈ (SidetrackTable.ofTree g t).below heap →
        ∃ first w, (first, w) ∈ heap.toList ∧
          s ∈ ((SidetrackTable.ofTree g t).incoming w).toList := by
      intro heap hs
      obtain ⟨p, hp, hs⟩ := List.mem_flatMap.mp hs
      exact ⟨p.1, p.2, hp, hs⟩
    rcases List.mem_append.mp hs with hs | hs
    · exact ⟨key, owner, List.mem_cons_self .., List.mem_of_mem_drop hs⟩
    · split at hs
      · rcases List.mem_append.mp hs with hs | hs
        · obtain ⟨first, w, hw, hs⟩ := below hs
          exact ⟨first, w, List.mem_cons_of_mem _ (List.mem_append_left _ hw), hs⟩
        · obtain ⟨first, w, hw, hs⟩ := below hs
          exact ⟨first, w, List.mem_cons_of_mem _ (List.mem_append_right _ hw), hs⟩
      · cases hs

namespace Valid

theorem nodup_pool (h : path.Valid g t v) : (path.pool (.ofTree g t)).Nodup := by
  by_cases hpos : path.position = 0
  · rw [pool_eq_below hpos]
    exact SidetrackTable.nodup_below h.nodup
  · unfold pool
    cases hheap : path.heap with
    | nil => exact List.nodup_nil
    | node serial rank key owner left right =>
      simp only [if_neg hpos, List.append_nil]
      refine List.Nodup.sublist (List.drop_sublist _ _) ?_
      have hnd := SidetrackTable.nodup_below (g := g) (t := t) h.nodup
      rw [hheap, SidetrackTable.below, LeftistHeap.toList, List.flatMap_cons] at hnd
      exact (List.nodup_append.mp hnd).1

/-- What a pending path leads to are paths. -/
theorem sidetrackPath (h : path.Valid g t v) {l : List Sidetrack} (hl : path.Leads g t l) :
    SidetrackPath g t v l := by
  obtain ⟨s, rest, rfl, hs, hrest⟩ := hl
  obtain ⟨u, hlink, htop⟩ := h.link
  obtain ⟨first, w, hw, hs⟩ := mem_pool hs
  obtain ⟨hside, rfl⟩ :=
    (SidetrackTable.mem_incoming_iff (SidetrackTable.lt_nodes_of_mem hs)).mp hs
  obtain ⟨⟨es, hes⟩, -⟩ := htop _ _ hw
  exact hlink.append_iff.mpr (.cons hside hes hrest)

/-- The further sidetrack is the cheapest of those that may take its place. -/
theorem last_le (h : path.Valid g t v) (hlast : path.last? (.ofTree g t) = some last)
    (hs : s ∈ path.pool (.ofTree g t)) : last.delta ≤ s.delta := by
  obtain ⟨u, -, htop⟩ := h.link
  have hord := h.ordered
  by_cases hpos : path.position = 0
  · obtain ⟨first, w, hw, hs⟩ := mem_pool hs
    have hfs := Sidetrack.delta_le_of_le (SidetrackTable.first_le (htop _ _ hw).2 hs)
    unfold last? at hlast
    cases hheap : path.heap with
    | nil => rw [hheap] at hw; cases hw
    | node serial rank key owner left right =>
      rw [hheap] at hlast hw hord htop
      simp only [hpos] at hlast
      obtain rfl := Option.some.inj ((htop key owner (List.mem_cons_self ..)).2.symm.trans hlast)
      have := Sidetrack.delta_le_of_le (hord.le_root Sidetrack.le_totalPreorder _ hw)
      exact Int.le_trans this hfs
  · unfold last? pool at *
    cases hheap : path.heap with
    | nil => simp [hheap] at hlast
    | node serial rank key owner left right =>
      simp only [hheap, if_neg hpos, List.append_nil] at hlast hs
      rw [← Array.getElem?_toList] at hlast
      obtain ⟨hlt, hget⟩ := List.getElem?_eq_some_iff.mp hlast
      have hmem := List.mem_of_mem_drop hs
      have hpair := (SidetrackTable.pairwise_incoming (t := t)
        (SidetrackTable.lt_nodes_of_mem hmem)).sublist (List.drop_sublist path.position _)
      rw [List.drop_eq_getElem_cons hlt, hget] at hs hpair
      rcases List.mem_cons.mp hs with rfl | hs
      · exact Int.le_refl _
      · exact Sidetrack.delta_le_of_le ((List.pairwise_cons.mp hpair).1 s hs)

theorem detour_le (h : path.Valid g t v) (ht : g.IsShortestPathTree t) (hg : g.Priced t.root)
    {l : List Sidetrack} (hl : path.Leads g t l) : path.detour ≤ Sidetrack.detour l := by
  obtain ⟨s, rest, rfl, hs, hrest⟩ := hl
  obtain ⟨last, hlast, hdetour⟩ := h.last
  have hle := h.last_le hlast hs
  have hnn := hrest.detour_nonneg ht hg
  rw [Sidetrack.detour_append, Sidetrack.detour_cons]
  omega

end Valid

theorem top?_eq_some {kept : List Sidetrack} {detour : Int} {heap : SidetrackHeap}
    {q : PendingPath} (hq : top? kept detour heap = some q) : ∃ top, heap.key? = some top ∧
      q = ⟨kept, heap, 0, detour + top.delta⟩ := by
  obtain ⟨top, htop, rfl⟩ := Option.map_eq_some_iff.mp hq
  exact ⟨top, htop, rfl⟩

theorem top?_eq_none_iff {kept : List Sidetrack} {detour : Int} {heap : SidetrackHeap} :
    top? kept detour heap = none ↔ heap = .nil := by
  cases heap <;> simp [top?, LeftistHeap.key?]

theorem valid_of_top? {kept : List Sidetrack} {heap : SidetrackHeap} {q : PendingPath} {u : Nat}
    (hq : top? kept (Sidetrack.detour kept) heap = some q) (hord : heap.Ordered Sidetrack.le)
    (hnd : (heap.toList.map Prod.snd).Nodup) (hlink : SidetrackLink g t v kept u)
    (hmem : ∀ first w, (first, w) ∈ heap.toList →
      (∃ es, t.Path g w es u) ∧ ((SidetrackTable.ofTree g t).incoming w)[0]? = some first) :
    q.Valid g t v := by
  obtain ⟨top, htop, rfl⟩ := top?_eq_some hq
  refine ⟨hord, hnd, ⟨u, hlink, hmem⟩, top, ?_, rfl⟩
  cases heap with
  | nil => cases htop
  | node serial rank key owner left right =>
    obtain rfl : key = top := Option.some.inj htop
    exact (hmem key owner (List.mem_cons_self ..)).2

theorem leads_iff_of_top? {kept : List Sidetrack} {detour : Int} {heap : SidetrackHeap}
    {q : PendingPath} (hq : top? kept detour heap = some q) {l : List Sidetrack} :
    q.Leads g t l ↔ ∃ s rest, l = kept ++ s :: rest ∧
      s ∈ (SidetrackTable.ofTree g t).below heap ∧ SidetrackPath g t s.source rest := by
  obtain ⟨top, -, rfl⟩ := top?_eq_some hq
  unfold Leads
  rw [pool_eq_below rfl]

/-- The ways to go on from a pending path, each with the sidetracks that it may take in the place of
the further one. -/
def branches (table : SidetrackTable) (path : PendingPath) (last : Sidetrack)
    (heap : SidetrackHeap) : List (Option PendingPath × List Sidetrack) :=
  match path.heap with
  | .nil => []
  | .node _ _ _ owner left right =>
    let base := path.detour - last.delta
    let first := fun (h : SidetrackHeap) => if path.position = 0 then h else .nil
    [(top? path.kept base (first left), table.below (first left)),
      (top? path.kept base (first right), table.below (first right)),
      (path.next? table base, (table.incoming owner).toList.drop (path.position + 1)),
      (top? (path.kept ++ [last]) path.detour heap, [last])]

/-- The paths that take the place of a pending path. -/
def successors (table : SidetrackTable) (path : PendingPath) (last : Sidetrack)
    (heap : SidetrackHeap) : List PendingPath :=
  (branches table path last heap).filterMap Prod.fst

theorem pool_perm_branches (hlast : path.last? (.ofTree g t) = some last) (heap : SidetrackHeap) :
    (path.pool (.ofTree g t)).Perm ((branches (.ofTree g t) path last heap).flatMap Prod.snd) := by
  unfold last? at hlast
  unfold pool branches
  cases hheap : path.heap with
  | nil => simp
  | node serial rank key owner left right =>
    rw [hheap] at hlast
    simp only [← Array.getElem?_toList] at hlast
    obtain ⟨hlt, hget⟩ := List.getElem?_eq_some_iff.mp hlast
    simp only [List.flatMap_cons, List.flatMap_nil, List.append_nil]
    rw [List.drop_eq_getElem_cons hlt, hget]
    by_cases hpos : path.position = 0
    · simp only [hpos, if_true]
      generalize (SidetrackTable.ofTree g t).below left = a
      generalize (SidetrackTable.ofTree g t).below right = b
      generalize List.drop _ _ = c
      rw [← List.append_assoc a b]
      refine List.perm_append_comm.trans (List.Perm.append_left _ ?_)
      rw [← List.singleton_append]
      exact List.perm_append_comm
    · simp only [hpos, if_false, SidetrackTable.below, LeftistHeap.toList, List.flatMap_nil,
        List.append_nil, List.nil_append]
      rw [← List.singleton_append]
      exact List.perm_append_comm

end PendingPath

theorem HeapOf.mem_below_iff {g : Graph} {t : ShortestPathTree} {u : Nat} {heap : SidetrackHeap}
    (h : HeapOf g t u heap) (hg : g.Priced t.root) {s : Sidetrack} :
    s ∈ (SidetrackTable.ofTree g t).below heap ↔
      IsSidetrack g t s ∧ ∃ es, t.Path g s.target es u := by
  unfold SidetrackTable.below
  rw [List.mem_flatMap]
  constructor
  · rintro ⟨⟨first, w⟩, hw, hs⟩
    obtain ⟨hside, rfl⟩ :=
      (SidetrackTable.mem_incoming_iff (SidetrackTable.lt_nodes_of_mem hs)).mp hs
    exact ⟨hside, ((h.mem_iff _ _).mp hw).1⟩
  · rintro ⟨hside, hpath⟩
    have hs : s ∈ ((SidetrackTable.ofTree g t).incoming s.target).toList := by
      obtain ⟨edge, he, hof⟩ := id hside
      obtain ⟨_, _, -, -, -, heq⟩ := Sidetrack.ofEdge?_eq_some_iff.mp hof
      have htar : s.target = edge.target := congrArg Sidetrack.target heq
      exact (SidetrackTable.mem_incoming_iff (htar ▸ hg.target_lt he)).mpr ⟨hside, rfl⟩
    cases hfirst : ((SidetrackTable.ofTree g t).incoming s.target)[0]? with
    | none =>
      rw [← Array.getElem?_toList, List.getElem?_eq_none_iff] at hfirst
      rw [List.eq_nil_of_length_eq_zero (Nat.le_zero.mp hfirst)] at hs
      cases hs
    | some first => exact ⟨(first, s.target), (h.mem_iff _ _).mpr ⟨hpath, hfirst⟩, hs⟩

namespace PendingPath

variable {g : Graph} {t : ShortestPathTree} {v : Nat} {path : PendingPath} {last : Sidetrack}
  {heap : SidetrackHeap}

theorem last_mem_pool (hlast : path.last? (.ofTree g t) = some last) :
    last ∈ path.pool (.ofTree g t) :=
  (pool_perm_branches hlast .nil).mem_iff.mpr <| by
    unfold last? at hlast
    unfold branches
    cases hheap : path.heap with
    | nil => rw [hheap] at hlast; cases hlast
    | node => simp

/-- Every path that a pending path leads to is that path itself or comes from one way to go on. -/
theorem exists_successor (hg : g.Priced t.root)
    (hlast : path.last? (.ofTree g t) = some last) (hheap : HeapOf g t last.source heap)
    {l : List Sidetrack} (hl : path.Leads g t l) :
    l = path.kept ++ [last] ∨ ∃ q ∈ successors (.ofTree g t) path last heap, q.Leads g t l := by
  obtain ⟨s, rest, rfl, hs, hrest⟩ := hl
  have hs' := (pool_perm_branches hlast heap).mem_iff.mp hs
  obtain ⟨b, hb, hsb⟩ := List.mem_flatMap.mp hs'
  have go : (∃ q, b.1 = some q ∧ q.Leads g t (path.kept ++ s :: rest)) →
      ∃ q ∈ successors (.ofTree g t) path last heap, q.Leads g t (path.kept ++ s :: rest) :=
    fun ⟨q, hq, hleads⟩ => ⟨q, List.mem_filterMap.mpr ⟨b, hb, hq⟩, hleads⟩
  have side : ∀ {kept : List Sidetrack} {detour : Int} {sub : SidetrackHeap} {s : Sidetrack}
      {rest : List Sidetrack}, s ∈ (SidetrackTable.ofTree g t).below sub →
      SidetrackPath g t s.source rest →
      ∃ q, top? kept detour sub = some q ∧ q.Leads g t (kept ++ s :: rest) := by
    intro kept detour sub s rest hs hrest
    cases htop : top? kept detour sub with
    | none =>
      rw [top?_eq_none_iff.mp htop] at hs
      cases hs
    | some q => exact ⟨q, rfl, (leads_iff_of_top? htop).mpr ⟨s, rest, rfl, hs, hrest⟩⟩
  unfold branches at hb
  cases hpath : path.heap with
  | nil => rw [hpath] at hb; cases hb
  | node serial rank key owner left right =>
    rw [hpath] at hb
    simp only [List.mem_cons, List.not_mem_nil, or_false] at hb
    rcases hb with rfl | rfl | rfl | rfl
    · exact .inr (go (side hsb hrest))
    · exact .inr (go (side hsb hrest))
    · refine .inr (go ?_)
      have hlt := List.length_pos_of_mem hsb
      rw [List.length_drop] at hlt
      have hnext : last? (.ofTree g t) { path with position := path.position + 1 } =
          some ((SidetrackTable.ofTree g t).incoming owner).toList[path.position + 1] := by
        simp only [last?, hpath]
        rw [← Array.getElem?_toList, List.getElem?_eq_getElem (by omega)]
      refine ⟨_, Option.map_eq_some_iff.mpr ⟨_, hnext, rfl⟩, s, rest, rfl, ?_, hrest⟩
      simpa [pool, hpath] using hsb
    · obtain rfl := List.mem_singleton.mp hsb
      cases hrest with
      | nil => exact .inl rfl
      | cons hside hpath' hrest' =>
        refine .inr (go ?_)
        rw [List.append_cons path.kept s (_ :: _)]
        exact side ((hheap.mem_below_iff hg).mpr ⟨hside, _, hpath'⟩) hrest'

namespace Valid

/-- A pending path leads to itself. -/
theorem leads_self (h : path.Valid g t v) (ht : g.IsShortestPathTree t) (hg : g.Priced t.root)
    (hlast : path.last? (.ofTree g t) = some last) : path.Leads g t (path.kept ++ [last]) ∧
      Sidetrack.detour (path.kept ++ [last]) = path.detour := by
  obtain ⟨last', hlast', hdetour⟩ := h.last
  obtain rfl := Option.some.inj (hlast.symm.trans hlast')
  have hmem := last_mem_pool hlast
  obtain ⟨first, w, -, hs⟩ := mem_pool hmem
  obtain ⟨hside, -⟩ :=
    (SidetrackTable.mem_incoming_iff (SidetrackTable.lt_nodes_of_mem hs)).mp hs
  obtain ⟨_, near, _, -, -, -, hnear, -, -, -⟩ := hside.exists_edge ht hg
  exact ⟨⟨last, [], rfl, hmem, .nil hnear⟩, by simp [hdetour]⟩

/-- Some nodes of a heap, as a heap. -/
structure PartOf (sub heap : SidetrackHeap) : Prop where
  ordered : sub.Ordered Sidetrack.le
  nodup : (sub.toList.map Prod.snd).Nodup
  mem : ∀ x ∈ sub.toList, x ∈ heap.toList

theorem PartOf.children {heap left right : SidetrackHeap} {serial rank owner : Nat} {key : Sidetrack}
    (hord : heap.Ordered Sidetrack.le) (hnd : (heap.toList.map Prod.snd).Nodup)
    (hheap : heap = .node serial rank key owner left right) : PartOf left heap ∧ PartOf right heap := by
  subst hheap
  simp only [LeftistHeap.toList, List.map_cons, List.map_append, List.nodup_cons,
    List.nodup_append] at hnd
  obtain ⟨-, hleft, hright, -⟩ := hnd
  exact ⟨⟨hord.2.2.1, hleft, fun x hx => List.mem_cons_of_mem _ (List.mem_append_left _ hx)⟩,
    ⟨hord.2.2.2, hright, fun x hx => List.mem_cons_of_mem _ (List.mem_append_right _ hx)⟩⟩

theorem PartOf.ite_nil {sub heap : SidetrackHeap} (h : PartOf sub heap) (p : Prop) [Decidable p] :
    PartOf (if p then sub else .nil) heap := by
  split
  · exact h
  · exact ⟨trivial, List.nodup_nil, nofun⟩

/-- A path with another sidetrack than the last one is not the path itself. -/
theorem ne_of_disjoint {kept share rest : List Sidetrack} {s : Sidetrack}
    (hshare : share.Disjoint [last]) (hs : s ∈ share) : kept ++ s :: rest ≠ kept ++ [last] := by
  intro heq
  obtain ⟨rfl, -⟩ := List.cons.inj (List.append_cancel_left heq)
  exact hshare hs (List.mem_singleton.mpr rfl)

/-- Each way to go on is a pending path that takes one of its sidetracks. -/
theorem branch (h : path.Valid g t v)
    (hlast : path.last? (.ofTree g t) = some last) (hheap : HeapOf g t last.source heap)
    {b : Option PendingPath × List Sidetrack}
    (hb : b ∈ branches (.ofTree g t) path last heap) {q : PendingPath} (hq : b.1 = some q) :
    q.Valid g t v ∧ ∀ l, q.Leads g t l → l ≠ path.kept ++ [last] ∧
      ∃ s rest, l = path.kept ++ s :: rest ∧ s ∈ b.2 := by
  obtain ⟨u, hlink, hmem⟩ := h.link
  obtain ⟨last', hlast', hdetour⟩ := h.last
  obtain rfl := Option.some.inj (hlast.symm.trans hlast')
  have hbase : path.detour - last.delta = Sidetrack.detour path.kept := by omega
  have hdisj := (List.nodup_flatMap.mp
    ((pool_perm_branches hlast heap).nodup_iff.mp h.nodup_pool)).2
  obtain ⟨first, w, hw, hs⟩ := mem_pool (last_mem_pool hlast)
  obtain ⟨hside, rfl⟩ :=
    (SidetrackTable.mem_incoming_iff (SidetrackTable.lt_nodes_of_mem hs)).mp hs
  obtain ⟨⟨es, hes⟩, -⟩ := hmem _ _ hw
  unfold branches at hb hdisj
  cases hpath : path.heap with
  | nil => rw [hpath] at hw; cases hw
  | node serial rank key owner left right =>
    rw [hpath] at hb hdisj
    simp only [hbase] at hb hdisj
    simp only [List.pairwise_cons, List.forall_mem_cons] at hdisj
    obtain ⟨⟨-, -, hdisj₁, -⟩, ⟨-, hdisj₂, -⟩, ⟨hdisj₃, -⟩, -⟩ := hdisj
    obtain ⟨hleft, hright⟩ := PartOf.children h.ordered h.nodup hpath
    have side : ∀ {sub : SidetrackHeap}, PartOf sub path.heap →
        top? path.kept (Sidetrack.detour path.kept) sub = some q →
        ((SidetrackTable.ofTree g t).below sub).Disjoint [last] →
        q.Valid g t v ∧ ∀ l, q.Leads g t l → l ≠ path.kept ++ [last] ∧
          ∃ s rest, l = path.kept ++ s :: rest ∧ s ∈ (SidetrackTable.ofTree g t).below sub := by
      intro sub hsub hq hshare
      refine ⟨valid_of_top? hq hsub.ordered hsub.nodup hlink fun first w hw =>
        hmem first w (hsub.mem _ hw), fun l hl => ?_⟩
      obtain ⟨s, rest, rfl, hs, -⟩ := (leads_iff_of_top? hq).mp hl
      exact ⟨ne_of_disjoint hshare hs, s, rest, rfl, hs⟩
    simp only [List.mem_cons, List.not_mem_nil, or_false] at hb
    rcases hb with rfl | rfl | rfl | rfl
    · exact side (hleft.ite_nil _) hq hdisj₁
    · exact side (hright.ite_nil _) hq hdisj₂
    · obtain ⟨next, hnext, rfl⟩ := Option.map_eq_some_iff.mp hq
      refine ⟨⟨h.ordered, h.nodup, h.link, next, hnext, rfl⟩, ?_⟩
      rintro l ⟨s, rest, rfl, hs, -⟩
      have hs : s ∈ ((SidetrackTable.ofTree g t).incoming owner).toList.drop (path.position + 1) := by
        simpa [pool, hpath] using hs
      exact ⟨ne_of_disjoint hdisj₃ hs, s, rest, rfl, hs⟩
    · have hkept : path.detour = Sidetrack.detour (path.kept ++ [last]) := by simp [hdetour]
      rw [hkept] at hq
      refine ⟨valid_of_top? hq hheap.ordered hheap.nodup (hlink.snoc hside hes)
        fun first w hw => (hheap.mem_iff first w).mp hw, fun l hl => ?_⟩
      obtain ⟨s, rest, rfl, hs, -⟩ := (leads_iff_of_top? hq).mp hl
      exact ⟨by simp, last, s :: rest, by simp, by simp⟩

/-- What the successors lead to, the path leads to. -/
theorem leads_of_successor (h : path.Valid g t v)
    (hlast : path.last? (.ofTree g t) = some last) (hheap : HeapOf g t last.source heap)
    {q : PendingPath} (hq : q ∈ successors (.ofTree g t) path last heap) {l : List Sidetrack}
    (hl : q.Leads g t l) : path.Leads g t l := by
  obtain ⟨b, hb, hbq⟩ := List.mem_filterMap.mp hq
  obtain ⟨hvalid, hleads⟩ := h.branch hlast hheap hb hbq
  obtain ⟨-, s, rest, rfl, hs⟩ := hleads l hl
  obtain ⟨u, hlink, -⟩ := h.link
  refine ⟨s, rest, rfl, (pool_perm_branches hlast heap).mem_iff.mpr
    (List.mem_flatMap.mpr ⟨b, hb, hs⟩), ?_⟩
  have := hlink.append_iff.mp (hvalid.sidetrackPath hl)
  cases this with
  | cons _ _ hrest => exact hrest

/-- A successor is valid, and what it leads to the path leads to as well and is not the path itself. -/
theorem successor (h : path.Valid g t v) (ht : g.IsShortestPathTree t) (hg : g.Priced t.root)
    (hlast : path.last? (.ofTree g t) = some last) (hheap : HeapOf g t last.source heap)
    {q : PendingPath} (hq : q ∈ successors (.ofTree g t) path last heap) :
    q.Valid g t v ∧ (∀ l, q.Leads g t l → path.Leads g t l ∧ l ≠ path.kept ++ [last]) ∧
      path.detour ≤ q.detour := by
  obtain ⟨b, hb, hbq⟩ := List.mem_filterMap.mp hq
  obtain ⟨hvalid, hbranch⟩ := h.branch hlast hheap hb hbq
  have hleads := fun l => h.leads_of_successor hlast hheap hq (l := l)
  refine ⟨hvalid, fun l hl => ⟨hleads l hl, (hbranch l hl).1⟩, ?_⟩
  obtain ⟨last', hlast', -⟩ := hvalid.last
  obtain ⟨hl, hdetour⟩ := hvalid.leads_self ht hg hlast'
  exact hdetour ▸ h.detour_le ht hg (hleads _ hl)

/-- No path comes from two successors. -/
theorem pairwise_successors (h : path.Valid g t v)
    (hlast : path.last? (.ofTree g t) = some last) (hheap : HeapOf g t last.source heap) :
    (successors (.ofTree g t) path last heap).Pairwise fun a b =>
      ∀ l, a.Leads g t l → ¬b.Leads g t l := by
  have hdisj := (List.nodup_flatMap.mp
    ((pool_perm_branches hlast heap).nodup_iff.mp h.nodup_pool)).2
  unfold successors
  rw [List.pairwise_filterMap]
  refine hdisj.imp_of_mem fun {a b} ha hb hab p hp q hq l hpl hql => ?_
  obtain ⟨-, s, rest, hl, hs⟩ := (h.branch hlast hheap ha hp).2 l hpl
  obtain ⟨-, s', rest', hl', hs'⟩ := (h.branch hlast hheap hb hq).2 l hql
  have := List.append_cancel_left (hl.symm.trans hl')
  rw [List.cons.injEq] at this
  exact hab hs (this.1 ▸ hs')

end Valid

end PendingPath

end RankedPlans
