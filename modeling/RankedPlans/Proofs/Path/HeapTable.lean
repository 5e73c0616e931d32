import RankedPlans.Proofs.Heap.Arena
import RankedPlans.Proofs.Path.SidetrackHeap

/-! The heaps of nodes as roots in one table of heap nodes. A query walks up to the nearest node that has a root and
gives roots to the nodes below it on its way back. Whatever was asked for before, the answer reads as a heap with the
cheapest sidetrack into each node on the tree path; later queries give the same root and leave it as it is. -/

namespace RankedPlans

/-- The roots of the nodes that have one, which is none for an empty heap, and the nodes of all heaps. -/
structure HeapTable where
  roots : Array (Option (Option Nat))
  arena : HeapArena Sidetrack Nat

namespace HeapTable

/-- No node has a root. -/
def start (g : Graph) : HeapTable := ⟨Array.replicate g.nodes none, #[]⟩

/-- The nodes from one up to the last one without a root, and the root above them. -/
def chain (h : HeapTable) (g : Graph) (t : ShortestPathTree) : Nat → Nat → List Nat × Option Nat
  | 0, _ => ([], none)
  | fuel + 1, v =>
    match h.roots[v]?.join with
    | some root => ([], root)
    | none =>
      match t.parent? v with
      | none => ([v], none)
      | some e =>
        let (nodes, root) := h.chain g t fuel ((g.edges[e]?.map Edge.source).getD v)
        (v :: nodes, root)

/-- Gives a node the root above it, with the cheapest sidetrack into the node. -/
def extend (h : HeapTable) (sidetracks : SidetrackTable) (v : Nat) (above : Option Nat) : HeapTable × Option Nat :=
  match (sidetracks.incoming v)[0]? with
  | none => (⟨h.roots.setIfInBounds v (some above), h.arena⟩, above)
  | some first =>
    let (root, arena) := h.arena.insert Sidetrack.le above first v
    (⟨h.roots.setIfInBounds v (some root), arena⟩, root)

/-- The root of a node after so many steps up, the upper nodes being given their roots first. -/
def queryWithin (h : HeapTable) (g : Graph) (t : ShortestPathTree) (fuel v : Nat) : HeapTable × Option Nat :=
  let (nodes, root) := h.chain g t fuel v
  nodes.foldr (fun v (h, above) => h.extend (.ofTree g t) v above) (h, root)

/-- The root of a node. -/
def query (h : HeapTable) (g : Graph) (t : ShortestPathTree) (v : Nat) : HeapTable × Option Nat :=
  h.queryWithin g t (g.nodes + 1) v

/-- The table after some queries. -/
def after (g : Graph) (t : ShortestPathTree) (asked : List Nat) : HeapTable :=
  asked.foldl (fun h v => (h.query g t v).1) (start g)

variable {g : Graph} {t : ShortestPathTree} {h : HeapTable} {p : PathEnumeration} {root : Option Nat} {v : Nat}

/-- A table holds all heaps of an enumeration under the numbers of their roots. -/
structure Holds (g : Graph) (t : ShortestPathTree) (h : HeapTable) (p : PathEnumeration) : Prop where
  graph : p.graph = g
  tree : p.tree = t
  sidetracks : p.sidetracks = .ofTree g t
  older : h.arena.Older
  size_eq : h.arena.size = p.heapNodes
  roots_eq : h.roots = p.heaps.map (Option.map LeftistHeap.serial?)
  reads : ∀ {v : Nat} {heap}, p.heaps[v]?.join = some heap → h.arena.Reads heap.serial? heap

/-- Two answers to a query: the table has grown and holds all heaps, and the root reads as the heap. -/
structure Follows (g : Graph) (t : ShortestPathTree) (h : HeapTable) (answer : HeapTable × Option Nat)
    (heap : PathEnumeration × SidetrackHeap) : Prop where
  holds : answer.1.Holds g t heap.1
  begins : h.arena.Begins answer.1.arena
  reads : answer.1.arena.Reads answer.2 heap.2

theorem start_holds (g : Graph) (t : ShortestPathTree) : (start g).Holds g t (.start g t) where
  graph := rfl
  tree := rfl
  sidetracks := rfl
  older i n hn := by simp [start] at hn
  size_eq := rfl
  roots_eq := by simp [start, PathEnumeration.start]
  reads {v heap} hv := by
    rw [PathEnumeration.start_heaps] at hv
    cases hv

theorem Holds.roots_join (hh : h.Holds g t p) (v : Nat) :
    h.roots[v]?.join = p.heaps[v]?.join.map LeftistHeap.serial? := by
  rw [hh.roots_eq, Array.getElem?_map]
  cases p.heaps[v]? <;> rfl

/-- A new heap of a node. -/
theorem Holds.remember (hh : h.Holds g t p) {answer : Option Nat × HeapArena Sidetrack Nat}
    {heap : SidetrackHeap × Nat} (hext : h.arena.Extends answer heap) (v : Nat) :
    Follows g t h (⟨h.roots.setIfInBounds v (some answer.1), answer.2⟩, answer.1)
      ({ p with heaps := p.heaps.setIfInBounds v (some heap.1), heapNodes := heap.2 }, heap.1) := by
  refine ⟨⟨hh.graph, hh.tree, hh.sidetracks, hext.older, hext.size_eq, ?_, fun {w heap'} hw => ?_⟩, hext.begins,
    hext.reads⟩
  · rw [hh.roots_eq, hext.reads.root_eq, Array.map_setIfInBounds]
    rfl
  · rw [Array.getElem?_setIfInBounds] at hw
    split at hw
    · split at hw
      · cases hw
        exact hext.reads.root_eq ▸ hext.reads
      · cases hw
    · exact (hh.reads hw).mono hext.begins

theorem Holds.extend (hh : h.Holds g t p) {above : SidetrackHeap} (hr : h.arena.Reads root above) (v : Nat) :
    Follows g t h (h.extend (.ofTree g t) v root) (p.extendHeap v above) := by
  unfold HeapTable.extend PathEnumeration.extendHeap
  rw [← hh.sidetracks]
  cases (p.sidetracks.incoming v)[0]? with
  | none =>
    have hself := HeapArena.Extends.self hh.older hr
    rw [hh.size_eq] at hself
    exact hh.remember hself v
  | some first =>
    have hinsert := HeapArena.insert_extends Sidetrack.le hh.older hr first v
    rw [hh.size_eq] at hinsert
    exact hh.remember hinsert v

theorem Follows.extend {answer : HeapTable × Option Nat} {heap : PathEnumeration × SidetrackHeap}
    (hf : Follows g t h answer heap) (v : Nat) :
    Follows g t h (answer.1.extend (.ofTree g t) v answer.2) (heap.1.extendHeap v heap.2) := by
  have hext := hf.holds.extend hf.reads v
  exact ⟨hext.holds, hf.begins.trans hext.begins, hext.reads⟩

/-- The table answers as the enumeration does. -/
theorem Holds.queryWithin (hh : h.Holds g t p) (fuel v : Nat) :
    Follows g t h (h.queryWithin g t fuel v) (p.heapWithin fuel v) := by
  -- The walk up stops at the same node on both sides; each node below it is extended on the way back.
  induction fuel generalizing v with
  | zero => exact ⟨hh, .refl _, .nil⟩
  | succ fuel ih =>
    unfold HeapTable.queryWithin HeapTable.chain PathEnumeration.heapWithin
    rw [hh.roots_join v]
    cases hv : p.heaps[v]?.join with
    | some heap => exact ⟨hh, .refl _, hh.reads hv⟩
    | none =>
      simp only [hh.tree, Option.map_none]
      cases t.parent? v with
      | none => exact hh.extend .nil v
      | some e =>
        simp only [hh.graph]
        exact (ih _).extend v

theorem Holds.query (hh : h.Holds g t p) (v : Nat) : Follows g t h (h.query g t v) (p.heapOf v) := by
  rw [PathEnumeration.heapOf, hh.graph]
  exact hh.queryWithin _ v

/-- A node that has a root is not given another one. -/
theorem query_of_root (hv : h.roots[v]?.join = some root) : h.query g t v = (h, root) := by
  rw [HeapTable.query, HeapTable.queryWithin, chain, hv]
  rfl

theorem Holds.foldl_query (hh : h.Holds g t p) (asked : List Nat) :
    (asked.foldl (fun h v => (h.query g t v).1) h).Holds g t (asked.foldl (fun p v => (p.heapOf v).1) p) ∧
      h.arena.Begins (asked.foldl (fun h v => (h.query g t v).1) h).arena := by
  induction asked generalizing h p with
  | nil => exact ⟨hh, .refl _⟩
  | cons v asked ih =>
    obtain ⟨hholds, hbegins⟩ := ih (hh.query v).holds
    exact ⟨hholds, (hh.query v).begins.trans hbegins⟩

theorem after_holds (g : Graph) (t : ShortestPathTree) (asked : List Nat) :
    (after g t asked).Holds g t (.after g t asked) :=
  ((start_holds g t).foldl_query asked).1

/-- Later queries only add to the table. -/
theorem after_begins (g : Graph) (t : ShortestPathTree) (asked later : List Nat) (v : Nat) :
    ((after g t asked).query g t v).1.arena.Begins (after g t (asked ++ v :: later)).arena := by
  have hafter : after g t (asked ++ v :: later) =
      later.foldl (fun h v => (h.query g t v).1) ((after g t asked).query g t v).1 := List.foldl_append
  rw [hafter]
  exact (((after_holds g t asked).query v).holds.foldl_query later).2

/-- A query gives a root that reads as a heap with one entry for each node on the tree path that sidetracks lead
into, the cheapest of them, whatever was asked for before. Other queries before it lead to a heap of the same
entries. After any later queries the root reads as the same heap, and the query gives it again and leaves the table
as it is. The costs of the edges play no part. -/
theorem query_any_order {root : Nat} (hg : g.Joined root) (sink : Nat) {asked later : List Nat}
    (hreached : ∀ w ∈ asked ++ v :: later, ∃ es, g.Walk root es w) :
    let t := g.shortestPathTree root sink
    let answer := (after g t asked).query g t v
    let heap := ((PathEnumeration.after g t asked).heapOf v).2
    let ended := after g t (asked ++ v :: later)
    answer.1.arena.Reads answer.2 heap ∧ heap.Ordered Sidetrack.le ∧
    (∃ nodes, t.Ascent g v nodes ∧ nodes.Nodup ∧
      heap.toList.Perm (nodes.filterMap (SidetrackTable.ofTree g t).cheapest?)) ∧
    (∀ asked', (∀ w ∈ asked', ∃ es, g.Walk root es w) →
      ((PathEnumeration.after g t asked').heapOf v).2.toList.Perm heap.toList) ∧
    (∀ read, ended.arena.Reads answer.2 read ↔ read = heap) ∧
    ended.query g t v = (ended, answer.2) ∧
    (PathEnumeration.after g t (asked ++ v :: later)).heapOf v = (.after g t (asked ++ v :: later), heap) ∧
    ended.arena.size = (PathEnumeration.after g t (asked ++ v :: later)).heapNodes := by
  intro t answer heap ended
  have ht : g.IsSpanningTree t := hg.isSpanningTree sink
  have hdistance {l : List Nat} (hl : ∀ w ∈ l, ∃ es, g.Walk root es w) : ∀ w ∈ l, ∃ d, t.distance? w = some d := by
    intro w hw
    obtain ⟨es, hes⟩ := hl w hw
    exact hg.exists_distance? sink hes
  obtain ⟨d, hv⟩ := hdistance hreached v (by simp)
  obtain ⟨k, hk⟩ := ht.chain hv
  obtain ⟨nodes, hnodes, -, hnd, -⟩ := ht.exists_ascent hk
  have hentries (asked' : List Nat) (hasked' : ∀ w ∈ asked', ∃ es, g.Walk root es w) :
      HeapOf g t v ((PathEnumeration.after g t asked').heapOf v).2 :=
    (PathEnumeration.heapOf_spec ht hg (PathEnumeration.after_grown ht hg (hdistance hasked')).sound hv).2.1
  have hheap : HeapOf g t v heap := hentries asked (List.forall_mem_append.mp hreached).1
  have hanswer : Follows g t (after g t asked) answer ((PathEnumeration.after g t asked).heapOf v) :=
    (after_holds g t asked).query v
  have hended : ended.Holds g t (.after g t (asked ++ v :: later)) := after_holds g t _
  have hremembered := PathEnumeration.after_remembered ht hg (hdistance hreached)
  have hreads : ended.arena.Reads answer.2 heap := hanswer.reads.mono (after_begins g t asked later v)
  refine ⟨hanswer.reads, hheap.ordered, ⟨nodes, hnodes, hnd, hheap.perm ht hnodes hnd⟩, fun asked' hasked' => ?_,
    fun read => hreads.reads_iff, query_of_root ?_, PathEnumeration.heapOf_of_remembered hremembered, hended.size_eq⟩
  · exact ((hentries asked' hasked').perm ht hnodes hnd).trans (hheap.perm ht hnodes hnd).symm
  · rw [hended.roots_join, hremembered, Option.map_some, ← hanswer.reads.root_eq]

/-- Two edges lead to node 1, and only a tree edge to node 2. Node 3 is further away than costs can tell; it has a
loop, and an edge leads from it back to the root. -/
def distantLoop : Graph where
  nodes := 4
  edges := #[⟨0, 1, .operator 0, 2⟩, ⟨0, 1, .operator 1, 3⟩, ⟨1, 2, .operator 2, 1⟩, ⟨2, 3, .operator 3, Cost.top⟩,
    ⟨3, 3, .operator 4, 0⟩, ⟨3, 0, .operator 5, 1⟩]

theorem query_any_order_distantLoop : distantLoop.Joined 0 ∧
    (∀ w ∈ [2] ++ 3 :: [0, 1], ∃ es, distantLoop.Walk 0 es w) ∧
    let t := distantLoop.shortestPathTree 0 3
    let heap := ((PathEnumeration.after distantLoop t [2]).heapOf 3).2
    let ended := after distantLoop t ([2] ++ 3 :: [0, 1])
    ((after distantLoop t [2]).query distantLoop t 3).2 = some 4 ∧ heap.toList.map Prod.snd = [3, 1, 0] ∧
    heap.Ordered Sidetrack.le ∧ (∀ read, ended.arena.Reads (some 4) read ↔ read = heap) ∧
    ended.query distantLoop t 3 = (ended, some 4) := by
  have hg : distantLoop.Joined 0 := .of_forall_mem (by decide) (by decide)
  have hwalk₁ : distantLoop.Walk 0 [0] 1 := Graph.walk_cons_iff.mpr ⟨_, rfl, rfl, .nil 1⟩
  have hwalk₂ : distantLoop.Walk 0 [0, 2] 2 := hwalk₁.append (Graph.walk_cons_iff.mpr ⟨_, rfl, rfl, .nil 2⟩)
  have hwalk₃ : distantLoop.Walk 0 [0, 2, 3] 3 := hwalk₂.append (Graph.walk_cons_iff.mpr ⟨_, rfl, rfl, .nil 3⟩)
  have hreached : ∀ w ∈ [2] ++ 3 :: [0, 1], ∃ es, distantLoop.Walk 0 es w := by
    simp only [List.cons_append, List.nil_append, List.forall_mem_cons]
    exact ⟨⟨_, hwalk₂⟩, ⟨_, hwalk₃⟩, ⟨_, .nil 0⟩, ⟨_, hwalk₁⟩, List.forall_mem_nil _⟩
  have hroot : ((after distantLoop (distantLoop.shortestPathTree 0 3) [2]).query distantLoop
      (distantLoop.shortestPathTree 0 3) 3).2 = some 4 := by decide +kernel
  obtain ⟨-, hordered, -, -, hreads, hquery, -, -⟩ := query_any_order hg 3 hreached
  rw [hroot] at hreads hquery
  exact ⟨hg, hreached, hroot, by decide +kernel, hordered, hreads, hquery⟩

end HeapTable

end RankedPlans
