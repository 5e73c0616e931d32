import Mathlib.Data.List.Nodup
import RankedPlans.Path.Enumeration
import RankedPlans.Proofs.Path.Sidetrack

/-! The heap of a node holds, for every node on its tree path that has sidetracks into it, the cheapest
of them. It is built once, whatever heaps were asked for before. -/

namespace RankedPlans

/-- What a node adds to the heaps below it: the cheapest sidetrack into it, if there is one. -/
def SidetrackTable.cheapest? (table : SidetrackTable) (u : Nat) : Option (Sidetrack × Nat) :=
  (table.incoming u)[0]?.map (·, u)

theorem SidetrackTable.cheapest?_eq_some_iff {table : SidetrackTable} {u : Nat} {entry : Sidetrack × Nat} :
    table.cheapest? u = some entry ↔ (table.incoming u)[0]? = some entry.1 ∧ u = entry.2 := by
  rw [cheapest?, Option.map_eq_some_iff]
  constructor
  · rintro ⟨first, hfirst, rfl⟩
    exact ⟨hfirst, rfl⟩
  · rintro ⟨hfirst, rfl⟩
    exact ⟨entry.1, hfirst, rfl⟩

/-- The heap of a node: ordered, with one entry for each node above it that has incoming sidetracks. -/
structure HeapOf (g : Graph) (t : ShortestPathTree) (v : Nat) (heap : SidetrackHeap) : Prop where
  ordered : heap.Ordered Sidetrack.le
  mem_iff : ∀ first u, (first, u) ∈ heap.toList ↔
    (∃ es, t.Path g u es v) ∧ ((SidetrackTable.ofTree g t).incoming u)[0]? = some first
  nodup : (heap.toList.map Prod.snd).Nodup

namespace HeapOf

variable {g : Graph} {t : ShortestPathTree} {v : Nat} {above : SidetrackHeap}

/-- One more entry, or none if no sidetrack leads into the node. -/
theorem extend (hmem : ∀ first u, (first, u) ∈ above.toList ↔
      (∃ es, t.Path g u es v) ∧ u ≠ v ∧ ((SidetrackTable.ofTree g t).incoming u)[0]? = some first)
    (hord : above.Ordered Sidetrack.le) (hnd : (above.toList.map Prod.snd).Nodup) (next : Nat) :
    HeapOf g t v (match ((SidetrackTable.ofTree g t).incoming v)[0]? with
      | none => above
      | some first => (above.insert Sidetrack.le next first v).1) := by
  cases hv : ((SidetrackTable.ofTree g t).incoming v)[0]? with
  | none =>
    refine ⟨hord, fun first u => ?_, hnd⟩
    rw [hmem]
    refine ⟨fun h => ⟨h.1, h.2.2⟩, fun h => ⟨h.1, ?_, h.2⟩⟩
    rintro rfl
    rw [hv] at h
    cases h.2
  | some top =>
    have hperm := LeftistHeap.insert_toList Sidetrack.le next above top v
    refine ⟨LeftistHeap.insert_ordered Sidetrack.le_totalPreorder next hord top v,
      fun first u => ?_, ?_⟩
    · rw [hperm.mem_iff, List.mem_cons, Prod.mk.injEq, hmem]
      by_cases hu : u = v
      · subst hu
        simp only [hv, and_true, ne_eq, not_true_eq_false, false_and, and_false, or_false,
          Option.some.injEq]
        exact ⟨fun h => ⟨⟨[], .nil⟩, h.symm⟩, fun h => h.2.symm⟩
      · simp [hu]
    · rw [(hperm.map Prod.snd).nodup_iff, List.map_cons, List.nodup_cons]
      refine ⟨fun h => ?_, hnd⟩
      obtain ⟨⟨first, u⟩, hin, rfl⟩ := List.mem_map.mp h
      exact ((hmem _ _).mp hin).2.1 rfl

/-- The entries of a heap are those of the nodes on the way up. -/
theorem perm (ht : g.IsSpanningTree t) {heap : SidetrackHeap} (h : HeapOf g t v heap) {nodes : List Nat}
    (hnodes : t.Ascent g v nodes) (hnd : nodes.Nodup) :
    heap.toList.Perm (nodes.filterMap (SidetrackTable.ofTree g t).cheapest?) := by
  have hentries : (nodes.filterMap (SidetrackTable.ofTree g t).cheapest?).Nodup := by
    refine hnd.filterMap fun u u' entry hu hu' => ?_
    rw [(SidetrackTable.cheapest?_eq_some_iff.mp hu).2, (SidetrackTable.cheapest?_eq_some_iff.mp hu').2]
  refine (List.perm_ext_iff_of_nodup (List.Nodup.of_map _ h.nodup) hentries).mpr fun ⟨first, u⟩ => ?_
  rw [h.mem_iff, List.mem_filterMap]
  constructor
  · rintro ⟨hpath, hfirst⟩
    exact ⟨u, (hnodes.mem_iff ht).mpr hpath, SidetrackTable.cheapest?_eq_some_iff.mpr ⟨hfirst, rfl⟩⟩
  · rintro ⟨w, hw, hentry⟩
    obtain ⟨hfirst, rfl⟩ := SidetrackTable.cheapest?_eq_some_iff.mp hentry
    exact ⟨(hnodes.mem_iff ht).mp hw, hfirst⟩

end HeapOf

namespace PathEnumeration

/-- An enumeration of the paths of a graph and its tree, with the heaps built so far. -/
structure Sound (g : Graph) (t : ShortestPathTree) (p : PathEnumeration) : Prop where
  graph : p.graph = g
  tree : p.tree = t
  sidetracks : p.sidetracks = .ofTree g t
  heaps : ∀ {v heap}, p.heaps[v]?.join = some heap → HeapOf g t v heap

/-- Nothing but heaps was added. -/
structure SameQueue (p q : PathEnumeration) : Prop where
  queue : q.queue = p.queue
  pushed : q.pushed = p.pushed
  started : q.started = p.started

variable {g : Graph} {t : ShortestPathTree} {p : PathEnumeration} {v : Nat}

theorem SameQueue.refl (p : PathEnumeration) : SameQueue p p := ⟨rfl, rfl, rfl⟩

theorem SameQueue.trans {p q r : PathEnumeration} (h : SameQueue p q) (h' : SameQueue q r) :
    SameQueue p r :=
  ⟨h'.queue.trans h.queue, h'.pushed.trans h.pushed, h'.started.trans h.started⟩

theorem start_heaps (g : Graph) (t : ShortestPathTree) (v : Nat) : (start g t).heaps[v]?.join = none := by
  simp only [start, Array.getElem?_replicate]
  split <;> rfl

theorem start_sound (g : Graph) (t : ShortestPathTree) : Sound g t (start g t) := by
  refine ⟨rfl, rfl, rfl, fun {v heap} h => ?_⟩
  rw [start_heaps] at h
  cases h

theorem extendHeap_snd (hp : p.Sound g t) (above : SidetrackHeap) : (p.extendHeap v above).2 =
    match ((SidetrackTable.ofTree g t).incoming v)[0]? with
      | none => above
      | some first => (above.insert Sidetrack.le p.heapNodes first v).1 := by
  unfold extendHeap
  rw [hp.sidetracks]
  cases ((SidetrackTable.ofTree g t).incoming v)[0]? <;> rfl

/-- What is remembered with the heap of a node. -/
theorem extendHeap_fst (p : PathEnumeration) (v : Nat) (above : SidetrackHeap) : ∃ n, (p.extendHeap v above).1 =
    { p with heaps := p.heaps.setIfInBounds v (some (p.extendHeap v above).2), heapNodes := n } := by
  unfold extendHeap
  cases (p.sidetracks.incoming v)[0]? <;> exact ⟨_, rfl⟩

/-- More heaps are remembered, and those that were are the same. -/
structure Grown (g : Graph) (t : ShortestPathTree) (p q : PathEnumeration) : Prop where
  sound : q.Sound g t
  sameQueue : SameQueue p q
  size_eq : q.heaps.size = p.heaps.size
  kept : ∀ {v : Nat} {heap}, p.heaps[v]?.join = some heap → q.heaps[v]?.join = some heap

theorem Grown.refl (hp : p.Sound g t) : Grown g t p p := ⟨hp, .refl p, rfl, id⟩

theorem Grown.trans {q r : PathEnumeration} (h : Grown g t p q) (h' : Grown g t q r) : Grown g t p r :=
  ⟨h'.sound, h.sameQueue.trans h'.sameQueue, h'.size_eq.trans h.size_eq, fun hw => h'.kept (h.kept hw)⟩

theorem Grown.extendHeap {q : PathEnumeration} (h : Grown g t p q) {above : SidetrackHeap}
    (hv : p.heaps[v]?.join = none) (hheap : HeapOf g t v (q.extendHeap v above).2) :
    Grown g t p (q.extendHeap v above).1 := by
  obtain ⟨n, heq⟩ := extendHeap_fst q v above
  rw [heq]
  refine ⟨⟨h.sound.graph, h.sound.tree, h.sound.sidetracks, fun {w heap} hw => ?_⟩,
    ⟨h.sameQueue.queue, h.sameQueue.pushed, h.sameQueue.started⟩, ?_, fun {w heap} hw => ?_⟩
  · rw [Array.getElem?_setIfInBounds] at hw
    split at hw
    · rename_i heq
      subst heq
      split at hw
      · cases hw
        exact hheap
      · cases hw
    · exact h.sound.heaps hw
  · rw [Array.size_setIfInBounds, h.size_eq]
  · have hne : v ≠ w := by
      rintro rfl
      rw [hv] at hw
      cases hw
    rw [Array.getElem?_setIfInBounds_ne hne, h.kept hw]

theorem extendHeap_remembered (hv : v < p.heaps.size) (above : SidetrackHeap) :
    (p.extendHeap v above).1.heaps[v]?.join = some (p.extendHeap v above).2 := by
  obtain ⟨n, heq⟩ := extendHeap_fst p v above
  rw [heq, Array.getElem?_setIfInBounds_self_of_lt hv, Option.join_some]

/-- Asking for the heap of a node gives it and remembers it. -/
theorem heapWithin_spec (ht : g.IsSpanningTree t) (hp : p.Sound g t) {k fuel : Nat}
    (hk : ParentChain g t.root t.parent? k v) (hf : k < fuel) :
    Grown g t p (p.heapWithin fuel v).1 ∧ HeapOf g t v (p.heapWithin fuel v).2 ∧
      (v < p.heaps.size → (p.heapWithin fuel v).1.heaps[v]?.join = some (p.heapWithin fuel v).2) := by
  -- The induction is on the depth of the node. A heap that is remembered ends the walk up at any depth; else the heap
  -- of the parent lacks only the node itself, which is at another depth than all nodes above it.
  induction hk generalizing fuel with
  | root =>
    obtain ⟨fuel, rfl⟩ : ∃ n, fuel = n + 1 := ⟨fuel - 1, by omega⟩
    unfold heapWithin
    cases hv : p.heaps[t.root]?.join with
    | some heap => exact ⟨.refl hp, hp.heaps hv, fun _ => hv⟩
    | none =>
      simp only [hp.tree, ht.root_parent]
      have hheap : HeapOf g t t.root (p.extendHeap t.root .nil).2 := by
        have hnil : LeftistHeap.Ordered Sidetrack.le (.nil : SidetrackHeap) := trivial
        rw [extendHeap_snd hp]
        refine HeapOf.extend (fun first u => ?_) hnil List.nodup_nil _
        constructor
        · intro h
          cases h
        · rintro ⟨⟨es, hes⟩, hne, -⟩
          cases hes with
          | nil => exact absurd rfl hne
          | snoc hpar => rw [ht.root_parent] at hpar; cases hpar
      exact ⟨(Grown.refl hp).extendHeap hv hheap, hheap, fun hlt => extendHeap_remembered hlt _⟩
  | @step k v e edge hpar he h ih =>
    obtain ⟨fuel, rfl⟩ : ∃ n, fuel = n + 1 := ⟨fuel - 1, by omega⟩
    unfold heapWithin
    cases hv : p.heaps[v]?.join with
    | some heap => exact ⟨.refl hp, hp.heaps hv, fun _ => hv⟩
    | none =>
      simp only [hp.tree, hpar, hp.graph, he, Option.map_some, Option.getD_some]
      obtain ⟨hgrown, habove, -⟩ := ih (show k < fuel by omega)
      have hheap : HeapOf g t v ((p.heapWithin fuel edge.source).1.extendHeap v
          (p.heapWithin fuel edge.source).2).2 := by
        rw [extendHeap_snd hgrown.sound]
        refine HeapOf.extend (fun first u => ?_) habove.ordered habove.nodup _
        rw [habove.mem_iff]
        constructor
        · rintro ⟨⟨es, hes⟩, hu⟩
          refine ⟨⟨_, .snoc hpar he hes⟩, ?_, hu⟩
          rintro rfl
          have := ht.depth_unique ((hes.snoc hpar he).depth (.step hpar he h)) (.step hpar he h)
          simp at this
        · rintro ⟨⟨es, hes⟩, hne, hu⟩
          cases hes with
          | nil => exact absurd rfl hne
          | snoc hpar' he' hes =>
            obtain rfl := Option.some.inj (hpar.symm.trans hpar')
            obtain rfl := Option.some.inj (he.symm.trans he')
            exact ⟨⟨_, hes⟩, hu⟩
      exact ⟨hgrown.extendHeap hv hheap, hheap, fun hlt => extendHeap_remembered (hgrown.size_eq ▸ hlt) _⟩

theorem heapOf_spec (ht : g.IsSpanningTree t) (hg : g.Joined t.root) (hp : p.Sound g t) {d : Int}
    (hv : t.distance? v = some d) :
    Grown g t p (p.heapOf v).1 ∧ HeapOf g t v (p.heapOf v).2 ∧
      (v < p.heaps.size → (p.heapOf v).1.heaps[v]?.join = some (p.heapOf v).2) := by
  obtain ⟨k, hk⟩ := ht.chain hv
  have := ht.depth_lt hg hk
  exact heapWithin_spec ht hp hk (by rw [hp.graph]; omega)

/-- A heap that is remembered is not built again. -/
theorem heapOf_of_remembered {heap : SidetrackHeap} (hv : p.heaps[v]?.join = some heap) : p.heapOf v = (p, heap) := by
  rw [heapOf, heapWithin, hv]

/-- An enumeration that was only asked for heaps of nodes. -/
def after (g : Graph) (t : ShortestPathTree) (asked : List Nat) : PathEnumeration :=
  asked.foldl (fun p v => (p.heapOf v).1) (start g t)

theorem Sound.foldl_heapOf (ht : g.IsSpanningTree t) (hg : g.Joined t.root) (hp : p.Sound g t) {asked : List Nat}
    (hasked : ∀ v ∈ asked, ∃ d, t.distance? v = some d) :
    Grown g t p (asked.foldl (fun p v => (p.heapOf v).1) p) := by
  induction asked generalizing p with
  | nil => exact .refl hp
  | cons v asked ih =>
    obtain ⟨⟨d, hv⟩, hasked⟩ := List.forall_mem_cons.mp hasked
    obtain ⟨hgrown, -⟩ := heapOf_spec ht hg hp hv
    exact hgrown.trans (ih hgrown.sound hasked)

theorem after_grown (ht : g.IsSpanningTree t) (hg : g.Joined t.root) {asked : List Nat}
    (hasked : ∀ v ∈ asked, ∃ d, t.distance? v = some d) : Grown g t (start g t) (after g t asked) :=
  (start_sound g t).foldl_heapOf ht hg hasked

/-- A heap that was asked for is remembered until the end. -/
theorem after_remembered (ht : g.IsSpanningTree t) (hg : g.Joined t.root) {asked later : List Nat}
    (hasked : ∀ w ∈ asked ++ v :: later, ∃ d, t.distance? w = some d) :
    (after g t (asked ++ v :: later)).heaps[v]?.join = some ((after g t asked).heapOf v).2 := by
  rw [List.forall_mem_append, List.forall_mem_cons] at hasked
  obtain ⟨hbefore, ⟨d, hv⟩, hlater⟩ := hasked
  have hgrown := after_grown ht hg hbefore
  obtain ⟨hquery, -, hremembered⟩ := heapOf_spec ht hg hgrown.sound hv
  obtain ⟨k, hk⟩ := ht.chain hv
  have hlt : v < (after g t asked).heaps.size := by
    rw [hgrown.size_eq, start, Array.size_replicate]
    exact ht.lt_of_chain hg hk
  rw [after, List.foldl_append, List.foldl_cons]
  exact (hquery.sound.foldl_heapOf ht hg hlater).kept (hremembered hlt)

end PathEnumeration

end RankedPlans
