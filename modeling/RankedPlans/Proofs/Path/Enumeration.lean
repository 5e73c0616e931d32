import RankedPlans.Proofs.Heap.PriorityQueue
import RankedPlans.Proofs.Path.PendingPath

/-! The enumeration of the paths of a graph is exact. Each path comes once and none too early: what has
not come yet is led to by exactly one of the paths that wait, and costs no less than that one. -/

namespace RankedPlans

namespace PathEnumeration

/-- The paths that wait in the queue of an enumeration under way, each by its detour. -/
structure Waiting (g : Graph) (t : ShortestPathTree) (p : PathEnumeration)
    (paths : List PendingPath) : Prop where
  sound : p.Sound g t
  started : p.started = true
  valid : p.queue.Valid costThenNumber
  perm : (p.queue.toList.map Prod.snd).Perm paths
  key : ∀ x ∈ p.queue.toList, x.1.1 = x.2.detour

variable {g : Graph} {t : ShortestPathTree} {p q : PathEnumeration} {paths : List PendingPath}

namespace Waiting

theorem push (h : p.Waiting g t paths) (path : PendingPath) :
    (p.push path).Waiting g t (path :: paths) where
  sound := ⟨h.sound.graph, h.sound.tree, h.sound.sidetracks, h.sound.heaps⟩
  started := h.started
  valid := h.valid.push costThenNumber_totalPreorder _ _
  perm := ((PriorityQueue.push_toList costThenNumber p.queue _ _).map Prod.snd).trans
    (h.perm.cons path)
  key x hx := by
    rcases List.mem_cons.mp ((PriorityQueue.push_toList costThenNumber p.queue _ _).mem_iff.mp hx)
      with rfl | hx
    · rfl
    · exact h.key x hx

theorem pushTop (h : p.Waiting g t paths) (kept : List Sidetrack) (detour : Int)
    (heap : SidetrackHeap) : (p.pushTop kept detour heap).Waiting g t
      ((PendingPath.top? kept detour heap).toList ++ paths) := by
  unfold PathEnumeration.pushTop PendingPath.top?
  cases heap.key? with
  | none => exact h
  | some top => exact h.push _

theorem sameQueue (h : p.Waiting g t paths) (hs : SameQueue p q) (hq : q.Sound g t) :
    q.Waiting g t paths :=
  ⟨hq, hs.started.trans h.started, hs.queue ▸ h.valid, hs.queue ▸ h.perm, hs.queue ▸ h.key⟩

theorem reorder {paths' : List PendingPath} (h : p.Waiting g t paths) (hp : paths.Perm paths') :
    p.Waiting g t paths' :=
  ⟨h.sound, h.started, h.valid, h.perm.trans hp, h.key⟩

end Waiting

theorem pushTop_nil (p : PathEnumeration) (kept : List Sidetrack) (detour : Int) :
    p.pushTop kept detour .nil = p := rfl

theorem filterMap_fst_cons {α β : Type} (o : Option α) (b : β) (l : List (Option α × β)) :
    ((o, b) :: l).filterMap Prod.fst = o.toList ++ l.filterMap Prod.fst := by
  cases o <;> rfl

/-- A heap without nodes adds nothing, so it does not matter that it is no child. -/
theorem foldl_children (p : PathEnumeration) (kept : List Sidetrack) (detour : Int)
    (serial rank : Nat) (key : Sidetrack) (owner : Nat) (left right : SidetrackHeap) :
    (LeftistHeap.node serial rank key owner left right).children.foldl
      (fun p child => p.pushTop kept detour child) p =
    (p.pushTop kept detour left).pushTop kept detour right := by
  cases left <;> cases right <;>
    simp [LeftistHeap.children, LeftistHeap.serial?, pushTop_nil]

namespace Waiting

theorem pushChildren (h : p.Waiting g t paths) (kept : List Sidetrack) (position : Nat)
    (base : Int) (serial rank : Nat) (key : Sidetrack) (owner : Nat) (left right : SidetrackHeap) :
    Waiting g t (if position = 0 then
        (LeftistHeap.node serial rank key owner left right).children.foldl
          (fun p child => p.pushTop kept base child) p
      else p)
      ((PendingPath.top? kept base (if position = 0 then right else .nil)).toList ++
        ((PendingPath.top? kept base (if position = 0 then left else .nil)).toList ++ paths)) := by
  by_cases hpos : position = 0
  · simp only [hpos, if_true, foldl_children]
    exact (h.pushTop _ _ _).pushTop _ _ _
  · simp only [hpos, if_false]
    exact h

theorem pushNext (h : p.Waiting g t paths) (path : PendingPath) (base : Int) :
    Waiting g t (match p.sidetrackAt? path.heap (path.position + 1) with
      | some next =>
        p.push { path with position := path.position + 1, detour := base + next.delta }
      | none => p) ((path.next? (.ofTree g t) base).toList ++ paths) := by
  unfold PendingPath.next? PendingPath.last? PathEnumeration.sidetrackAt?
  cases path.heap with
  | nil => exact h
  | node serial rank key owner left right =>
    simp only [h.sound.sidetracks]
    cases ((SidetrackTable.ofTree g t).incoming owner)[path.position + 1]? with
    | none => exact h
    | some next => exact h.push _

theorem pushHeapOf (h : p.Waiting g t paths) (ht : g.IsShortestPathTree t)
    (hg : g.Priced t.root) {v : Nat} {d : Int} (hv : t.distance? v = some d)
    (kept : List Sidetrack) (detour : Int) : ∃ heap, HeapOf g t v heap ∧
      Waiting g t ((p.heapOf v).1.pushTop kept detour (p.heapOf v).2)
        ((PendingPath.top? kept detour heap).toList ++ paths) := by
  obtain ⟨hgrown, hheap, -⟩ := heapOf_spec ht.isSpanningTree hg.joined h.sound hv
  exact ⟨_, hheap, (h.sameQueue hgrown.sameQueue hgrown.sound).pushTop _ _ _⟩

/-- What waits once the successors of a path do. -/
theorem pushSuccessors {path : PendingPath} {last : Sidetrack}
    (h : p.Waiting g t paths) (ht : g.IsShortestPathTree t) (hg : g.Priced t.root)
    (hlast : path.last? (.ofTree g t) = some last) :
    ∃ heap, HeapOf g t last.source heap ∧ (p.pushSuccessors path last).Waiting g t
      (PendingPath.successors (.ofTree g t) path last heap ++ paths) := by
  obtain ⟨first, w, -, hs⟩ := PendingPath.mem_pool (PendingPath.last_mem_pool hlast)
  obtain ⟨hside, -⟩ := (SidetrackTable.mem_incoming_iff (SidetrackTable.lt_nodes_of_mem hs)).mp hs
  obtain ⟨_, near, _, -, -, -, hnear, -, -, -⟩ := hside.exists_edge ht hg
  obtain ⟨kept, heap, position, detour⟩ := path
  cases heap with
  | nil => cases hlast
  | node serial rank key owner left right =>
    have h₁ := h.pushChildren kept position (detour - last.delta) serial rank key owner left right
    have h₂ := h₁.pushNext ⟨kept, .node serial rank key owner left right, position, detour⟩
      (detour - last.delta)
    obtain ⟨heap, hheap, h₃⟩ := h₂.pushHeapOf ht hg hnear (kept ++ [last]) detour
    refine ⟨heap, hheap, h₃.reorder ?_⟩
    simp only [PendingPath.successors, PendingPath.branches, filterMap_fst_cons,
      List.filterMap_nil]
    classical
    refine List.perm_iff_count.mpr fun x => ?_
    simp only [List.count_append, List.count_nil]
    omega

end Waiting

/-- What holds once some paths were listed: each path was listed or comes from exactly one that waits,
and those that wait cost no less. -/
structure Listed (g : Graph) (t : ShortestPathTree) (p : PathEnumeration) (optimal : Int)
    (cs : List Candidate) (paths : List PendingPath) : Prop where
  waiting : p.Waiting g t paths
  valid : ∀ q ∈ paths, q.Valid g t t.sink
  disjoint : paths.Pairwise fun a b => ∀ l, a.Leads g t l → ¬b.Leads g t l
  listed : ∀ c ∈ cs, SidetrackPath g t t.sink c.sidetracks ∧
    c.detour = Sidetrack.detour c.sidetracks ∧ c.cost = optimal + c.detour
  fresh : ∀ c ∈ cs, ∀ q ∈ paths, ¬q.Leads g t c.sidetracks
  total : ∀ l, SidetrackPath g t t.sink l →
    (∃ c ∈ cs, c.sidetracks = l) ∨ ∃ q ∈ paths, q.Leads g t l
  nodup : (cs.map Candidate.sidetracks).Nodup
  sorted : cs.Pairwise fun a b => a.cost ≤ b.cost
  detour_le : ∀ c ∈ cs, ∀ q ∈ paths, c.detour ≤ q.detour

variable {optimal : Int} {cs : List Candidate} {c : Candidate}

/-- The path at the front of the queue, and the state without it. -/
theorem Waiting.peek {key : Int × Nat} {path : PendingPath} (h : p.Waiting g t paths)
    (hp : p.queue.peek? = some (key, path)) : key.1 = path.detour ∧ path ∈ paths ∧
      (∀ q ∈ paths, path.detour ≤ q.detour) ∧ ∃ rest, paths.Perm (path :: rest) ∧
        Waiting g t { p with queue := p.queue.pop costThenNumber } rest := by
  have hmem := PriorityQueue.peek?_mem hp
  have hpop := PriorityQueue.pop_toList costThenNumber hp
  have hkey := h.key _ hmem
  refine ⟨hkey, h.perm.mem_iff.mp (List.mem_map_of_mem hmem), fun q hq => ?_, _,
    h.perm.symm.trans (hpop.map Prod.snd), ?_⟩
  · obtain ⟨x, hx, rfl⟩ := List.mem_map.mp (h.perm.mem_iff.mpr hq)
    have := le_of_costThenNumber (h.valid.peek?_le costThenNumber_totalPreorder hp x hx)
    rw [h.key x hx] at this
    exact hkey ▸ this
  · exact ⟨⟨h.sound.graph, h.sound.tree, h.sound.sidetracks, h.sound.heaps⟩, h.started,
      h.valid.pop costThenNumber_totalPreorder, .refl _,
      fun x hx => h.key x (hpop.mem_iff.mpr (List.mem_cons_of_mem _ hx))⟩

theorem sidetrackAt?_eq_last? (hp : p.Sound g t) (path : PendingPath) :
    p.sidetrackAt? path.heap path.position = path.last? (.ofTree g t) := by
  unfold sidetrackAt? PendingPath.last?
  cases path.heap with
  | nil => rfl
  | node => simp only [hp.sidetracks]

/-- The path at the front is listed, and its successors wait in its place. -/
theorem Listed.replace {path : PendingPath} {rest : List PendingPath} {last : Sidetrack}
    {heap : SidetrackHeap} (h : p.Listed g t optimal cs paths) (ht : g.IsShortestPathTree t)
    (hg : g.Priced t.root) (hperm : paths.Perm (path :: rest))
    (hle : ∀ q ∈ paths, path.detour ≤ q.detour)
    (hlast : path.last? (.ofTree g t) = some last) (hheap : HeapOf g t last.source heap)
    (hq : q.Waiting g t (PendingPath.successors (.ofTree g t) path last heap ++ rest)) :
    q.Listed g t optimal (cs ++ [⟨optimal + path.detour, path.detour, path.kept ++ [last]⟩])
      (PendingPath.successors (.ofTree g t) path last heap ++ rest) := by
  have hmem : path ∈ paths := hperm.mem_iff.mpr (List.mem_cons_self ..)
  have hrest : ∀ x ∈ rest, x ∈ paths := fun x hx => hperm.mem_iff.mpr (List.mem_cons_of_mem _ hx)
  have hpath := h.valid path hmem
  obtain ⟨hself, hdetour⟩ := hpath.leads_self ht hg hlast
  have hdisj : (path :: rest).Pairwise fun a b => ∀ l, a.Leads g t l → ¬b.Leads g t l :=
    (hperm.pairwise_iff fun hab l hb ha => hab l ha hb).mp h.disjoint
  obtain ⟨hdisj₁, hdisj₂⟩ := List.pairwise_cons.mp hdisj
  have hsucc := fun x hx => hpath.successor ht hg hlast hheap (q := x) hx
  have hmin : ∀ x ∈ PendingPath.successors (.ofTree g t) path last heap ++ rest,
      path.detour ≤ x.detour := by
    intro x hx
    rcases List.mem_append.mp hx with hx | hx
    · exact (hsucc x hx).2.2
    · exact hle x (hrest x hx)
  constructor
  case waiting => exact hq
  case valid =>
    intro x hx
    rcases List.mem_append.mp hx with hx | hx
    · exact (hsucc x hx).1
    · exact h.valid x (hrest x hx)
  case disjoint =>
    refine List.pairwise_append.mpr ⟨hpath.pairwise_successors hlast hheap, hdisj₂, ?_⟩
    exact fun a ha b hb l hal => hdisj₁ b hb l ((hsucc a ha).2.1 l hal).1
  case listed =>
    intro c hc
    rcases List.mem_append.mp hc with hc | hc
    · exact h.listed c hc
    · obtain rfl := List.mem_singleton.mp hc
      exact ⟨hpath.sidetrackPath hself, hdetour.symm, rfl⟩
  case fresh =>
    intro c hc x hx hl
    rcases List.mem_append.mp hc with hc | hc
    · rcases List.mem_append.mp hx with hx | hx
      · exact h.fresh c hc path hmem ((hsucc x hx).2.1 _ hl).1
      · exact h.fresh c hc x (hrest x hx) hl
    · obtain rfl := List.mem_singleton.mp hc
      rcases List.mem_append.mp hx with hx | hx
      · exact ((hsucc x hx).2.1 _ hl).2 rfl
      · exact hdisj₁ x hx _ hself hl
  case total =>
    intro l hl
    rcases h.total l hl with ⟨c, hc, rfl⟩ | ⟨x, hx, hxl⟩
    · exact .inl ⟨c, List.mem_append_left _ hc, rfl⟩
    · rcases List.mem_cons.mp (hperm.mem_iff.mp hx) with rfl | hx
      · rcases PendingPath.exists_successor hg hlast hheap hxl with rfl | ⟨y, hy, hyl⟩
        · exact .inl ⟨_, List.mem_append_right _ (List.mem_singleton.mpr rfl), rfl⟩
        · exact .inr ⟨y, List.mem_append_left _ hy, hyl⟩
      · exact .inr ⟨x, List.mem_append_right _ hx, hxl⟩
  case nodup =>
    rw [List.map_append, List.nodup_append]
    refine ⟨h.nodup, List.nodup_singleton _, fun a ha b hb hab => ?_⟩
    obtain ⟨c, hc, rfl⟩ := List.mem_map.mp ha
    obtain rfl := List.mem_singleton.mp hb
    exact h.fresh c hc path hmem (hab ▸ hself)
  case sorted =>
    refine List.pairwise_append.mpr ⟨h.sorted, List.pairwise_singleton _ _, fun a ha b hb => ?_⟩
    obtain rfl := List.mem_singleton.mp hb
    have := h.detour_le a ha path hmem
    rw [(h.listed a ha).2.2]
    show _ ≤ optimal + path.detour
    omega
  case detour_le =>
    intro c hc x hx
    rcases List.mem_append.mp hc with hc | hc
    · exact Int.le_trans (h.detour_le c hc path hmem) (hmin x hx)
    · obtain rfl := List.mem_singleton.mp hc
      exact hmin x hx

/-- One path more, or none is left. -/
theorem Listed.next (h : p.Listed g t optimal cs paths) (ht : g.IsShortestPathTree t)
    (hg : g.Priced t.root) (hopt : t.optimalCost? = some optimal) :
    (p.next? = none ∧ p.nextCost? = none ∧ paths = []) ∨
      ∃ c q paths', p.next? = some (c, q) ∧ p.nextCost? = some c.cost ∧
        (∀ x ∈ paths, c.cost ≤ optimal + x.detour) ∧ q.Listed g t optimal (cs ++ [c]) paths' := by
  have htree := h.waiting.sound.tree
  cases hpeek : p.queue.peek? with
  | none =>
    refine .inl ⟨?_, ?_, ?_⟩
    · simp [next?, htree, hopt, h.waiting.started, hpeek]
    · simp [nextCost?, htree, hopt, h.waiting.started, hpeek]
    · have := h.waiting.perm
      rw [PriorityQueue.peek?_eq_none_iff.mp hpeek] at this
      exact List.nil_perm.mp this
  | some front =>
    obtain ⟨key, path⟩ := front
    obtain ⟨hkey, hmem, hle, rest, hperm, hrest⟩ := h.waiting.peek hpeek
    obtain ⟨last, hlast, -⟩ := (h.valid path hmem).last
    obtain ⟨heap, hheap, hwait⟩ := hrest.pushSuccessors ht hg hlast
    have hat := sidetrackAt?_eq_last? h.waiting.sound path
    refine .inr ⟨_, _, _, ?_, ?_, fun x hx => Int.add_le_add_left (hle x hx) optimal,
      h.replace ht hg hperm hle hlast hheap hwait⟩
    · simp [next?, htree, hopt, h.waiting.started, hpeek, hat, hlast, hkey]
    · simp [nextCost?, htree, hopt, h.waiting.started, hpeek, hkey]

/-- The first path is the one without sidetracks. -/
theorem listed_first (ht : g.IsShortestPathTree t) (hg : g.Priced t.root)
    (hopt : t.optimalCost? = some optimal) : ∃ q paths,
      (start g t).next? = some (⟨optimal, 0, []⟩, q) ∧
      q.Listed g t optimal [⟨optimal, 0, []⟩] paths := by
  have hwait : Waiting g t { start g t with started := true } [] :=
    ⟨⟨rfl, rfl, rfl, (start_sound g t).heaps⟩, rfl, PriorityQueue.valid_empty, .refl _,
      fun x hx => absurd hx List.not_mem_nil⟩
  obtain ⟨heap, hheap, hq⟩ := hwait.pushHeapOf ht hg hopt [] 0
  have hnil : SidetrackPath g t t.sink [] := .nil hopt
  refine ⟨_, _, by simp [next?, start, hopt], hq, ?_, ?_, ?_, ?_, ?_, ?_, ?_, ?_⟩
  · intro q hq
    simp only [List.append_nil, Option.mem_toList] at hq
    exact PendingPath.valid_of_top? hq hheap.ordered hheap.nodup .nil
      fun first w hw => (hheap.mem_iff first w).mp hw
  · cases PendingPath.top? [] 0 heap with
    | none => exact List.Pairwise.nil
    | some q => exact List.pairwise_singleton _ _
  · intro c hc
    obtain rfl := List.mem_singleton.mp hc
    exact ⟨hnil, rfl, (Int.add_zero _).symm⟩
  · rintro c hc q - ⟨s, rest, heq, -, -⟩
    obtain rfl := List.mem_singleton.mp hc
    exact absurd heq (by simp)
  · intro l hl
    cases hl with
    | nil => exact .inl ⟨_, List.mem_singleton.mpr rfl, rfl⟩
    | @cons _ s es rest hs hes hrest =>
      have hbelow := (hheap.mem_below_iff hg).mpr ⟨hs, es, hes⟩
      refine .inr ?_
      cases htop : PendingPath.top? [] 0 heap with
      | none =>
        rw [PendingPath.top?_eq_none_iff.mp htop] at hbelow
        cases hbelow
      | some q => exact ⟨q, by simp, (PendingPath.leads_iff_of_top? htop).mpr
          ⟨s, rest, rfl, hbelow, hrest⟩⟩
  · exact List.nodup_singleton _
  · exact List.pairwise_singleton _ _
  · intro c hc q hq
    obtain rfl := List.mem_singleton.mp hc
    simp only [List.append_nil, Option.mem_toList] at hq
    have hvalid : q.Valid g t t.sink := PendingPath.valid_of_top? hq hheap.ordered
      hheap.nodup .nil fun first w hw => (hheap.mem_iff first w).mp hw
    obtain ⟨last, hlast, -⟩ := hvalid.last
    obtain ⟨hl, hd⟩ := hvalid.leads_self ht hg hlast
    exact hd ▸ (hvalid.sidetrackPath hl).detour_nonneg ht hg

/-- What so many calls give, and the enumeration behind them. -/
def take (p : PathEnumeration) : Nat → List Candidate × PathEnumeration
  | 0 => ([], p)
  | n + 1 =>
    let (cs, q) := p.take n
    match q.next? with
    | none => (cs, q)
    | some (c, q) => (cs ++ [c], q)

/-- The listed paths are walks from the root to the sink, cheapest first and each once, and no walk that
is cheaper than the next one is missing. -/
structure Exact (g : Graph) (root sink : Nat) (p : PathEnumeration) (cs : List Candidate) :
    Prop where
  walk : ∀ c ∈ cs, g.Walk root (p.edges c) sink ∧ g.cost (p.edges c) = c.cost
  sorted : cs.Pairwise fun a b => a.cost ≤ b.cost
  nextCost : p.nextCost? = p.next?.map fun (c, _) => c.cost
  nodup : (cs.map p.edges).Nodup
  cheaper : ∀ cost es, p.nextCost? = some cost → g.Walk root es sink → g.cost es < cost →
    es ∈ cs.map p.edges
  all : p.next? = none → ∀ es, g.Walk root es sink → es ∈ cs.map p.edges

theorem Listed.exact (h : p.Listed g t optimal cs paths) (ht : g.IsShortestPathTree t)
    (hg : g.Priced t.root) (hopt : t.optimalCost? = some optimal) : Exact g t.root t.sink p cs := by
  have hedges : ∀ c, p.edges c = t.pathTo g t.sink c.sidetracks := by
    intro c
    rw [edges, h.waiting.sound.tree, h.waiting.sound.graph]
  have hwalk : ∀ c ∈ cs, g.Walk t.root (p.edges c) t.sink ∧ g.cost (p.edges c) = c.cost := by
    intro c hc
    obtain ⟨hpath, hdetour, hcost⟩ := h.listed c hc
    obtain ⟨hw, d, hd, hsum⟩ := hpath.walk ht hg
    obtain rfl := Option.some.inj (hd.symm.trans hopt)
    rw [hedges, hcost, hdetour]
    exact ⟨hw, hsum⟩
  -- the sidetracks of a walk were listed or are still to come
  have htotal : ∀ es, g.Walk t.root es t.sink →
      es ∈ cs.map p.edges ∨ ∃ q ∈ paths, optimal + q.detour ≤ g.cost es := by
    intro es hes
    obtain ⟨l, hl, rfl⟩ := SidetrackPath.exists_of_walk ht hg hes
    rcases h.total l hl with ⟨c, hc, rfl⟩ | ⟨q, hq, hql⟩
    · exact .inl (List.mem_map.mpr ⟨c, hc, hedges c⟩)
    · obtain ⟨-, d, hd, hsum⟩ := hl.walk ht hg
      obtain rfl := Option.some.inj (hd.symm.trans hopt)
      have := (h.valid q hq).detour_le ht hg hql
      exact .inr ⟨q, hq, by omega⟩
  refine ⟨hwalk, h.sorted, ?_, ?_, ?_, ?_⟩
  · rcases h.next ht hg hopt with ⟨hnext, hcost, -⟩ | ⟨c, q, _, hnext, hcost, -, -⟩
    · rw [hnext, hcost]; rfl
    · rw [hnext, hcost]; rfl
  · refine (List.pairwise_map.mp h.nodup).imp_of_mem ?_ |> List.pairwise_map.mpr
    intro a b ha hb hab heq
    rw [hedges, hedges] at heq
    exact hab (SidetrackPath.pathTo_injective ht hg (h.listed a ha).1 (h.listed b hb).1 heq)
  · intro cost es hcost hes hlt
    refine (htotal es hes).resolve_right fun ⟨x, hx, hle⟩ => ?_
    rcases h.next ht hg hopt with ⟨-, hnone, -⟩ | ⟨c, q, _, -, hnext, hmin, -⟩
    · rw [hcost] at hnone
      cases hnone
    · obtain rfl := Option.some.inj (hcost.symm.trans hnext)
      have := hmin x hx
      omega
  · intro hnone es hes
    rcases h.next ht hg hopt with ⟨-, -, rfl⟩ | ⟨c, q, _, hnext, -, -, -⟩
    · exact (htotal es hes).resolve_right fun ⟨q, hq, _⟩ => absurd hq List.not_mem_nil
    · rw [hnone] at hnext
      cases hnext

/-- Some calls of an enumeration and what they gave. -/
inductive Lists (g : Graph) (t : ShortestPathTree) : PathEnumeration → List Candidate → Prop
  | nil : Lists g t (start g t) []
  | concat {p q : PathEnumeration} {cs : List Candidate} {c : Candidate} : Lists g t p cs →
      p.next? = some (c, q) → Lists g t q (cs ++ [c])

theorem Lists.listed (h : Lists g t p cs) (ht : g.IsShortestPathTree t) (hg : g.Priced t.root)
    (hopt : t.optimalCost? = some optimal) :
    (p = start g t ∧ cs = []) ∨ ∃ paths, p.Listed g t optimal cs paths := by
  induction h with
  | nil => exact .inl ⟨rfl, rfl⟩
  | concat _ hnext ih =>
    rcases ih with ⟨rfl, rfl⟩ | ⟨paths, hp⟩
    · obtain ⟨q, paths, hq, h⟩ := listed_first ht hg hopt
      obtain ⟨rfl, rfl⟩ := Prod.mk.inj (Option.some.inj (hnext.symm.trans hq))
      exact .inr ⟨paths, h⟩
    · rcases hp.next ht hg hopt with ⟨hnone, -, -⟩ | ⟨c, q, paths', hsome, -, -, h'⟩
      · rw [hnone] at hnext
        cases hnext
      · obtain ⟨rfl, rfl⟩ := Prod.mk.inj (Option.some.inj (hnext.symm.trans hsome))
        exact .inr ⟨paths', h'⟩

/-- Without a way to the sink no call gives a path. -/
theorem Lists.eq_start (h : Lists g t p cs) (hopt : t.optimalCost? = none) :
    p = start g t ∧ cs = [] := by
  induction h with
  | nil => exact ⟨rfl, rfl⟩
  | concat _ hsome ih =>
    rw [ih.1, next?] at hsome
    simp [start, hopt] at hsome

/-- A path has the same edges at any time of the enumeration. -/
theorem Lists.edges_eq (h : Lists g t p cs) (ht : g.IsShortestPathTree t) (hg : g.Priced t.root) :
    p.edges = (start g t).edges := by
  cases hopt : t.optimalCost? with
  | none => rw [(h.eq_start hopt).1]
  | some optimal =>
    rcases h.listed ht hg hopt with ⟨rfl, -⟩ | ⟨paths, hp⟩
    · rfl
    · funext c
      rw [edges, hp.waiting.sound.tree, hp.waiting.sound.graph]
      rfl

/-- An enumeration that has not begun has the cheapest path before it. -/
theorem start_exact (ht : g.IsShortestPathTree t) (hg : g.Priced t.root)
    (hopt : t.optimalCost? = some optimal) : Exact g t.root t.sink (start g t) [] := by
  obtain ⟨q, paths, hq, -⟩ := listed_first ht hg hopt
  have hcost : (start g t).nextCost? = some optimal := by simp [nextCost?, start, hopt]
  refine ⟨by simp, .nil, by rw [hq, hcost]; rfl, .nil, fun cost es hc hes hlt => ?_, fun hnone => ?_⟩
  · obtain ⟨d, hd, hle⟩ := ht.distance_le hes
    obtain rfl := Option.some.inj (hd.symm.trans hopt)
    obtain rfl := Option.some.inj (hcost.symm.trans hc)
    omega
  · rw [hq] at hnone
    cases hnone

theorem Lists.exact (h : Lists g t p cs) (ht : g.IsShortestPathTree t) (hg : g.Priced t.root) :
    Exact g t.root t.sink p cs := by
  cases hopt : t.optimalCost? with
  | some optimal =>
    rcases h.listed ht hg hopt with ⟨rfl, rfl⟩ | ⟨paths, hp⟩
    · exact start_exact ht hg hopt
    · exact hp.exact ht hg hopt
  | none =>
    obtain ⟨rfl, rfl⟩ := h.eq_start hopt
    have hno : ∀ es, ¬g.Walk t.root es t.sink := by
      intro es hes
      obtain ⟨d, hd, -⟩ := ht.distance_le hes
      rw [ShortestPathTree.optimalCost?, hd] at hopt
      cases hopt
    have hnext : (start g t).next? = none := by simp [next?, start, hopt]
    have hcost : (start g t).nextCost? = none := by simp [nextCost?, start, hopt]
    exact ⟨by simp, .nil, by rw [hnext, hcost]; rfl, .nil, fun _ es _ hes => absurd hes (hno es),
      fun _ es hes => absurd hes (hno es)⟩

/-- Whatever costs less than a listed path is listed. -/
theorem Lists.mem_of_cost_lt (h : Lists g t p cs) (ht : g.IsShortestPathTree t)
    (hg : g.Priced t.root) {c : Candidate} (hc : c ∈ cs) {es : List Nat}
    (hes : g.Walk t.root es t.sink) (hlt : g.cost es < c.cost) : es ∈ cs.map p.edges := by
  have hexact := h.exact ht hg
  cases hnext : p.next? with
  | none => exact hexact.all hnext es hes
  | some r =>
    obtain ⟨c', q⟩ := r
    have hcost : p.nextCost? = some c'.cost := by
      rw [hexact.nextCost, hnext]
      rfl
    have hsorted := ((h.concat hnext).exact ht hg).sorted
    have hle := (List.pairwise_append.mp hsorted).2.2 c hc c' (List.mem_singleton.mpr rfl)
    exact hexact.cheaper _ es hcost hes (by omega)

theorem take_lists (g : Graph) (t : ShortestPathTree) (n : Nat) :
    Lists g t ((start g t).take n).2 ((start g t).take n).1 := by
  induction n with
  | zero => exact .nil
  | succ n ih =>
    rw [take]
    cases hnext : ((start g t).take n).2.next? with
    | none => simpa only [hnext] using ih
    | some r => simpa only [hnext] using ih.concat hnext

/-- However many paths are asked for, the enumeration is exact. -/
theorem take_exact {root : Nat} (hg : g.Priced root) (sink n : Nat) :
    Exact g root sink ((start g (g.shortestPathTree root sink)).take n).2
      ((start g (g.shortestPathTree root sink)).take n).1 :=
  (take_lists g _ n).exact (Graph.shortestPathTree_isShortestPathTree hg sink) hg

end PathEnumeration

/-- A road with a dearer one beside it, and a way back to the start. -/
def Graph.roundTrip : Graph where
  nodes := 3
  edges := #[⟨0, 1, .operator 0, 1⟩, ⟨1, 2, .goal, 0⟩, ⟨1, 2, .goal, 2⟩, ⟨2, 0, .operator 1, 1⟩]

theorem Graph.roundTrip_priced : roundTrip.Priced 0 := by
  have h₁ : roundTrip.Walk 0 [0] 1 := walk_cons_iff.mpr ⟨_, rfl, rfl, .nil 1⟩
  have h₂ : roundTrip.Walk 0 [0, 1] 2 :=
    walk_cons_iff.mpr ⟨_, rfl, rfl, walk_cons_iff.mpr ⟨_, rfl, rfl, .nil 2⟩⟩
  refine .of_forall_mem (by decide) ?_
  simp only [roundTrip, List.forall_mem_cons]
  exact ⟨⟨by decide, by decide, by decide, [], .nil 0, by decide⟩,
    ⟨by decide, by decide, by decide, [0], h₁, by decide⟩,
    ⟨by decide, by decide, by decide, [0], h₁, by decide⟩,
    ⟨by decide, by decide, by decide, [0, 1], h₂, by decide⟩, by simp⟩

theorem PathEnumeration.take_exact_roundTrip : Graph.roundTrip.Priced 0 ∧
    ((start .roundTrip (Graph.roundTrip.shortestPathTree 0 2)).take 4).1.map Candidate.cost =
      [1, 3, 3, 5] ∧
    Exact .roundTrip 0 2 ((start .roundTrip (Graph.roundTrip.shortestPathTree 0 2)).take 4).2
      ((start .roundTrip (Graph.roundTrip.shortestPathTree 0 2)).take 4).1 :=
  ⟨Graph.roundTrip_priced, by decide +kernel, take_exact Graph.roundTrip_priced 2 4⟩

end RankedPlans
