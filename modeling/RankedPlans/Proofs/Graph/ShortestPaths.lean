import Mathlib.Data.List.Induction
import RankedPlans.Graph.ShortestPaths
import RankedPlans.Proofs.Graph.Walk
import RankedPlans.Proofs.Grouping
import RankedPlans.Proofs.Heap.PriorityQueue

/-! The search for shortest paths settles every node at the least cost of a walk to it. `Priced` says
what it relies on, `PathSearch.Invariant` what every step of it keeps, and `IsShortestPathTree` what
its result amounts to. -/

namespace RankedPlans

/-- Edges join nodes of the graph and cost nothing less than zero, and an edge out of a node that can
be reached fits, behind some walk to that node, into the range of costs. -/
structure Graph.Priced (g : Graph) (root : Nat) : Prop where
  root_lt : root < g.nodes
  source_lt : ∀ {e : Nat} {edge : Edge}, g.edges[e]? = some edge → edge.source < g.nodes
  target_lt : ∀ {e : Nat} {edge : Edge}, g.edges[e]? = some edge → edge.target < g.nodes
  nonneg : ∀ {e : Nat} {edge : Edge}, g.edges[e]? = some edge → 0 ≤ edge.cost
  inRange : ∀ {e : Nat} {edge : Edge} {es}, g.edges[e]? = some edge → g.Walk root es edge.source →
    ∃ fs, g.Walk root fs edge.source ∧ g.cost fs + edge.cost ≤ Cost.top

/-- A node at the end of so many parent edges from the root. -/
inductive ParentChain (g : Graph) (root : Nat) (parent? : Nat → Option Nat) : Nat → Nat → Prop
  | root : ParentChain g root parent? 0 root
  | step {k v e : Nat} {edge : Edge} : parent? v = some e → g.edges[e]? = some edge →
      ParentChain g root parent? k edge.source → ParentChain g root parent? (k + 1) v

theorem ParentChain.mono {g : Graph} {root : Nat} {p q : Nat → Option Nat}
    (hpq : ∀ v e, p v = some e → q v = some e) {k v : Nat} (h : ParentChain g root p k v) :
    ParentChain g root q k v := by
  induction h with
  | root => exact .root
  | step hp he _ ih => exact .step (hpq _ _ hp) he ih

/-- The distances are the least costs of walks from the root, and parent edges lead back to it along
such walks. -/
structure Graph.IsShortestPathTree (g : Graph) (t : ShortestPathTree) : Prop where
  root_distance : t.distance? t.root = some 0
  root_parent : t.parent? t.root = none
  walk : ∀ {v d}, t.distance? v = some d → ∃ es, g.Walk t.root es v ∧ g.cost es = d
  distance_le : ∀ {v es}, g.Walk t.root es v → ∃ d, t.distance? v = some d ∧ d ≤ g.cost es
  parent : ∀ {v e}, t.parent? v = some e → ∃ edge d, g.edges[e]? = some edge ∧ edge.target = v ∧
    t.distance? edge.source = some d ∧ t.distance? v = some (d + edge.cost)
  parented : ∀ {v d}, t.distance? v = some d → v ≠ t.root → ∃ e, t.parent? v = some e
  chain : ∀ {v d}, t.distance? v = some d → ∃ k, ParentChain g t.root t.parent? k v

namespace Graph

variable {g : Graph} {root : Nat}

/-- The edges out of a node are those that have it as their source. -/
theorem adjacency_toList {v : Nat} (hv : v < g.nodes) : (g.adjacency.getD v #[]).toList =
    (g.edges.toList.zipIdx.filter (·.1.source == v)).map fun p => (p.2, p.1) := by
  have h := getElem?_foldl_modify (fun p : Edge × Nat => p.1.source)
    (fun p (xs : Array (Nat × Edge)) => xs.push (p.2, p.1)) g.edges.toList.zipIdx
    (Array.replicate g.nodes #[]) v
  rw [Array.getD_eq_getD_getElem?, show g.adjacency[v]? = _ from h]
  simp [hv]

theorem mem_adjacency_iff {v e : Nat} {edge : Edge} (hv : v < g.nodes) :
    (e, edge) ∈ (g.adjacency.getD v #[]).toList ↔ g.edges[e]? = some edge ∧ edge.source = v := by
  rw [adjacency_toList hv]
  simp only [List.mem_map, List.mem_filter, beq_iff_eq, Prod.mk.injEq, Prod.exists]
  constructor
  · rintro ⟨edge', e', ⟨hmem, hs⟩, rfl, rfl⟩
    exact ⟨by simpa using List.mem_zipIdx_iff_getElem?.mp hmem, hs⟩
  · rintro ⟨he, hs⟩
    exact ⟨edge, e, ⟨List.mem_zipIdx_iff_getElem?.mpr (by simpa using he), hs⟩, rfl, rfl⟩

theorem Priced.of_forall_mem (hroot : root < g.nodes) (hedges : ∀ edge ∈ g.edges.toList,
    edge.source < g.nodes ∧ edge.target < g.nodes ∧ 0 ≤ edge.cost ∧
      ∃ fs, g.Walk root fs edge.source ∧ g.cost fs + edge.cost ≤ Cost.top) : g.Priced root := by
  have hmem : ∀ {e : Nat} {edge : Edge}, g.edges[e]? = some edge → edge ∈ g.edges.toList :=
    fun he => Array.mem_toList_iff.mpr (Array.mem_of_getElem? he)
  exact ⟨hroot, fun he => (hedges _ (hmem he)).1, fun he => (hedges _ (hmem he)).2.1,
    fun he => (hedges _ (hmem he)).2.2.1, fun he _ => (hedges _ (hmem he)).2.2.2⟩

theorem Priced.cost_nonneg (h : g.Priced root) {u v : Nat} {es : List Nat} (hw : g.Walk u es v) :
    0 ≤ g.cost es :=
  hw.cost_nonneg h.nonneg

end Graph

namespace PathSearch

/-- The least cost of a walk found so far. -/
def distance? (s : PathSearch) (v : Nat) : Option Int := s.distances[v]?.join

/-- The last edge of that walk. -/
def parent? (s : PathSearch) (v : Nat) : Option Nat := s.parents[v]?.join

def isSettled (s : PathSearch) (v : Nat) : Bool := s.settled.getD v false

/-- The parent edge of a settled node, which stays its parent edge. -/
def settledParent? (s : PathSearch) (v : Nat) : Option Nat :=
  if s.isSettled v then s.parent? v else none

/-- Every node has its places. -/
structure Sized (g : Graph) (s : PathSearch) : Prop where
  distances : s.distances.size = g.nodes
  parents : s.parents.size = g.nodes
  settled : s.settled.size = g.nodes

/-- What holds between two steps; the edges in `todo` lead out of settled nodes and have not been
tried yet. -/
structure Invariant (g : Graph) (root : Nat) (todo : List Nat) (s : PathSearch) : Prop where
  sized : s.Sized g
  valid : s.queue.Valid costThenNumber
  root_distance : s.distance? root = some 0
  root_parent : s.parent? root = none
  walk : ∀ {v d}, s.distance? v = some d → ∃ es, g.Walk root es v ∧ g.cost es = d
  waits : ∀ {v d}, s.distance? v = some d → s.isSettled v = false →
    ((d, v), ()) ∈ s.queue.toList
  queued : ∀ {v d}, ((d, v), ()) ∈ s.queue.toList → ∃ d', s.distance? v = some d' ∧ d' ≤ d
  reached : ∀ {v}, s.isSettled v = true → ∃ d, s.distance? v = some d
  settled_le : ∀ {u d v d'}, s.isSettled u = true → s.distance? u = some d →
    ((d', v), ()) ∈ s.queue.toList → d ≤ d'
  tried : ∀ {e} {edge : Edge} {d}, g.edges[e]? = some edge → e ∉ todo → s.isSettled edge.source = true →
    s.distance? edge.source = some d → ∃ d', s.distance? edge.target = some d' ∧ d' ≤ d + edge.cost
  parent : ∀ {v e}, s.parent? v = some e → ∃ edge d, g.edges[e]? = some edge ∧ edge.target = v ∧
    s.isSettled edge.source = true ∧ s.distance? edge.source = some d ∧
    s.distance? v = some (d + edge.cost)
  parented : ∀ {v d}, s.distance? v = some d → v ≠ root → ∃ e, s.parent? v = some e
  chain : ∀ {v}, s.isSettled v = true → ∃ k, ParentChain g root s.settledParent? k v

/-- A shorter walk to a node, by its cost and last edge. -/
def reach (s : PathSearch) (v : Nat) (d : Int) (e : Nat) : PathSearch :=
  { s with
    distances := s.distances.setIfInBounds v (some d)
    parents := s.parents.setIfInBounds v (some e)
    queue := s.queue.push costThenNumber (d, v) () }

/-- A node that is settled, and no longer at the front of the queue. -/
def mark (s : PathSearch) (v : Nat) : PathSearch :=
  { s with queue := s.queue.pop costThenNumber, settled := s.settled.setIfInBounds v true }

theorem relax_eq_self_or_reach (d : Int) (s : PathSearch) (e : Nat) (edge : Edge) :
    (relax d s e edge = s ∧ (s.isSettled edge.target = true ∨
      ∃ old, s.distance? edge.target = some old ∧ old ≤ Cost.add d edge.cost)) ∨
    (relax d s e edge = s.reach edge.target (Cost.add d edge.cost) e ∧
      s.isSettled edge.target = false ∧
      ∀ old, s.distance? edge.target = some old → Cost.add d edge.cost < old) := by
  unfold relax distance? isSettled reach
  cases hd : s.distances[edge.target]?.join with
  | none => cases hs : s.settled.getD edge.target false <;> simp
  | some old =>
    cases hs : s.settled.getD edge.target false
    · by_cases h : Cost.add d edge.cost < old
      · simp [h]
      · simp [h, Int.not_lt.mp h]
    · simp

theorem settle_of_isSettled {adjacency : Array (Array (Nat × Edge))} {s : PathSearch} {v : Nat}
    (hv : s.isSettled v = true) (d : Int) :
    settle adjacency s d v = { s with queue := s.queue.pop costThenNumber } :=
  if_pos hv

theorem settle_of_not_isSettled {adjacency : Array (Array (Nat × Edge))} {s : PathSearch} {v : Nat}
    (hv : s.isSettled v = false) (d : Int) : settle adjacency s d v =
      (adjacency.getD v #[]).toList.foldl (fun s p => relax d s p.1 p.2) (s.mark v) := by
  rw [Array.foldl_toList]
  exact if_neg (Bool.eq_false_iff.mp hv)

section Fields

variable {g : Graph} {s : PathSearch} {v w e : Nat} {d : Int}

theorem Sized.reach (h : s.Sized g) (v : Nat) (d : Int) (e : Nat) : (s.reach v d e).Sized g :=
  ⟨by simp [PathSearch.reach, h.distances], by simp [PathSearch.reach, h.parents], h.settled⟩

theorem Sized.mark (h : s.Sized g) (v : Nat) : (s.mark v).Sized g :=
  ⟨h.distances, h.parents, by simp [PathSearch.mark, h.settled]⟩

theorem distance?_reach_self (h : s.Sized g) (hv : v < g.nodes) :
    (s.reach v d e).distance? v = some d := by
  simp [distance?, reach, h.distances, hv]

theorem distance?_reach_ne (hne : w ≠ v) : (s.reach v d e).distance? w = s.distance? w := by
  simp [distance?, reach, hne.symm]

theorem distance?_reach_cases {d' : Int} (h : s.Sized g) (hv : v < g.nodes)
    (hw : (s.reach v d e).distance? w = some d') :
    (v = w ∧ d = d') ∨ (w ≠ v ∧ s.distance? w = some d') := by
  by_cases heq : v = w
  · subst heq
    exact .inl ⟨rfl, Option.some.inj ((distance?_reach_self h hv).symm.trans hw)⟩
  · rw [distance?_reach_ne (Ne.symm heq)] at hw
    exact .inr ⟨Ne.symm heq, hw⟩

theorem parent?_reach_self (h : s.Sized g) (hv : v < g.nodes) :
    (s.reach v d e).parent? v = some e := by
  simp [parent?, reach, h.parents, hv]

theorem parent?_reach_ne (hne : w ≠ v) : (s.reach v d e).parent? w = s.parent? w := by
  simp [parent?, reach, hne.symm]

@[simp] theorem isSettled_reach : (s.reach v d e).isSettled w = s.isSettled w := rfl

theorem mem_queue_reach {x : (Int × Nat) × Unit} :
    x ∈ (s.reach v d e).queue.toList ↔ x = ((d, v), ()) ∨ x ∈ s.queue.toList := by
  rw [show (s.reach v d e).queue = s.queue.push costThenNumber (d, v) () from rfl,
    (PriorityQueue.push_toList costThenNumber s.queue (d, v) ()).mem_iff, List.mem_cons]

@[simp] theorem distance?_mark : (s.mark v).distance? w = s.distance? w := rfl

@[simp] theorem parent?_mark : (s.mark v).parent? w = s.parent? w := rfl

theorem isSettled_mark_self (h : s.Sized g) (hv : v < g.nodes) : (s.mark v).isSettled v = true := by
  simp [isSettled, mark, h.settled, hv]

theorem isSettled_mark_ne (hne : w ≠ v) : (s.mark v).isSettled w = s.isSettled w := by
  simp [isSettled, mark, hne.symm]

theorem isSettled_mark_of_isSettled (hw : s.isSettled w = true) : (s.mark v).isSettled w = true := by
  by_cases hne : w = v
  · subst hne
    unfold isSettled mark at *
    rw [Array.getD_eq_getD_getElem?] at hw ⊢
    by_cases hlt : w < s.settled.size
    · simp [hlt]
    · simp [hlt] at hw
  · rw [isSettled_mark_ne hne, hw]

theorem parent?_of_settledParent? (hv : s.settledParent? v = some e) : s.parent? v = some e := by
  unfold settledParent? at hv
  split at hv
  · exact hv
  · cases hv

theorem settledParent?_reach (hv : s.isSettled v = false) (w : Nat) :
    (s.reach v d e).settledParent? w = s.settledParent? w := by
  unfold settledParent?
  by_cases hw : w = v
  · subst hw
    simp [hv]
  · rw [isSettled_reach, parent?_reach_ne hw]

theorem settledParent?_mark {f : Nat} (hw : s.settledParent? w = some f) :
    (s.mark v).settledParent? w = some f := by
  unfold settledParent? at *
  by_cases hs : s.isSettled w = true
  · rw [if_pos (isSettled_mark_of_isSettled hs), parent?_mark]
    rwa [if_pos hs] at hw
  · rw [if_neg hs] at hw
    cases hw

/-- If the parent edge of a node comes from a settled one, the node can be settled too. -/
theorem exists_chain_mark {root : Nat} (hs : s.Sized g) (hlt : v < g.nodes)
    (hparent : v ≠ root → ∃ e edge, s.parent? v = some e ∧ g.edges[e]? = some edge ∧ s.isSettled edge.source = true)
    (hchain : ∀ {w}, s.isSettled w = true → ∃ k, ParentChain g root s.settledParent? k w)
    (hw : (s.mark v).isSettled w = true) : ∃ k, ParentChain g root (s.mark v).settledParent? k w := by
  by_cases hne : w = v
  · subst hne
    by_cases hr : w = root
    · exact ⟨0, hr ▸ .root⟩
    · obtain ⟨e, edge, he, hedge, hsource⟩ := hparent hr
      obtain ⟨k, hk⟩ := hchain hsource
      refine ⟨k + 1, .step (e := e) ?_ hedge (hk.mono fun _ _ => settledParent?_mark)⟩
      rw [settledParent?, if_pos (isSettled_mark_self hs hlt), parent?_mark, he]
  · rw [isSettled_mark_ne hne] at hw
    obtain ⟨k, hk⟩ := hchain hw
    exact ⟨k, hk.mono fun _ _ => settledParent?_mark⟩

theorem Sized.lt_nodes (h : s.Sized g) (hv : s.distance? v = some d) : v < g.nodes := by
  rcases Nat.lt_or_ge v s.distances.size with hlt | hge
  · rw [← h.distances]
    exact hlt
  · simp [distance?, hge] at hv

end Fields

namespace Invariant

variable {g : Graph} {root : Nat} {todo : List Nat} {s : PathSearch} {v e : Nat} {d : Int}

theorem nonneg (h : Invariant g root todo s) (hg : g.Priced root) (hv : s.distance? v = some d) :
    0 ≤ d := by
  obtain ⟨es, hes, rfl⟩ := h.walk hv
  exact hg.cost_nonneg hes

theorem lt_nodes (h : Invariant g root todo s) (hv : s.distance? v = some d) : v < g.nodes :=
  h.sized.lt_nodes hv

/-- A shorter walk through a settled node, whose edge `e` need not be tried again. -/
theorem reach (h : Invariant g root (e :: todo) s) (hg : g.Priced root) {edge : Edge}
    (he : g.edges[e]? = some edge) (hs : s.isSettled edge.source = true)
    (hd : s.distance? edge.source = some d) (ht : s.isSettled edge.target = false)
    (hlt : ∀ old, s.distance? edge.target = some old → d + edge.cost < old)
    (hmono : ∀ {v d'}, s.isSettled v = true → s.distance? v = some d' → d' ≤ d) :
    Invariant g root todo (s.reach edge.target (d + edge.cost) e) := by
  have hnn := hg.nonneg he
  have hd0 := h.nonneg hg hd
  have hself := distance?_reach_self (d := d + edge.cost) (e := e) h.sized (hg.target_lt he)
  have hparent := parent?_reach_self (d := d + edge.cost) (e := e) h.sized (hg.target_lt he)
  have settled_ne : ∀ {w}, s.isSettled w = true → w ≠ edge.target := by
    rintro w hw rfl
    rw [ht] at hw
    cases hw
  have hroot : root ≠ edge.target := by
    intro hr
    have := hlt 0 (hr ▸ h.root_distance)
    omega
  -- a node has its old distance or is the target at its new one, which is shorter
  have hcases : ∀ {w d'}, (s.reach edge.target (d + edge.cost) e).distance? w = some d' →
      (edge.target = w ∧ d + edge.cost = d') ∨ (w ≠ edge.target ∧ s.distance? w = some d') :=
    fun hw => distance?_reach_cases h.sized (hg.target_lt he) hw
  have hshorter : ∀ {w d'}, s.distance? w = some d' →
      ∃ d'', (s.reach edge.target (d + edge.cost) e).distance? w = some d'' ∧ d'' ≤ d' := by
    intro w d' hw
    by_cases hwt : w = edge.target
    · subst hwt
      exact ⟨_, hself, Int.le_of_lt (hlt _ hw)⟩
    · exact ⟨d', by rw [distance?_reach_ne hwt, hw], Int.le_refl _⟩
  constructor
  case sized => exact h.sized.reach _ _ _
  case valid => exact h.valid.push costThenNumber_totalPreorder _ _
  case root_distance => rw [distance?_reach_ne hroot, h.root_distance]
  case root_parent => rw [parent?_reach_ne hroot, h.root_parent]
  case walk =>
    intro v d' hv
    rcases hcases hv with ⟨rfl, rfl⟩ | ⟨-, hv⟩
    · obtain ⟨es, hes, rfl⟩ := h.walk hd
      exact ⟨es ++ [e], Graph.walk_concat_iff.mpr ⟨edge, he, rfl, hes⟩, Graph.cost_concat he⟩
    · exact h.walk hv
  case waits =>
    intro v d' hv hvs
    rw [mem_queue_reach]
    rcases hcases hv with ⟨rfl, rfl⟩ | ⟨-, hv⟩
    · exact .inl rfl
    · exact .inr (h.waits hv hvs)
  case queued =>
    intro v d' hmem
    rcases mem_queue_reach.mp hmem with heq | hmem
    · cases heq
      exact ⟨_, hself, Int.le_refl _⟩
    · obtain ⟨d₀, hd₀, hle⟩ := h.queued hmem
      obtain ⟨d₁, hd₁, hle'⟩ := hshorter hd₀
      exact ⟨d₁, hd₁, Int.le_trans hle' hle⟩
  case reached =>
    intro v hv
    obtain ⟨d', hd'⟩ := h.reached hv
    exact ⟨d', by rw [distance?_reach_ne (settled_ne hv), hd']⟩
  case settled_le =>
    intro u du v dv hu hdu hmem
    rw [distance?_reach_ne (settled_ne hu)] at hdu
    rcases mem_queue_reach.mp hmem with heq | hmem
    · cases heq
      have := hmono hu hdu
      omega
    · exact h.settled_le hu hdu hmem
  case tried =>
    intro f edge' d' hf hnot hu hdu
    rw [isSettled_reach] at hu
    rw [distance?_reach_ne (settled_ne hu)] at hdu
    by_cases hfe : f = e
    · subst hfe
      obtain rfl : edge = edge' := Option.some.inj (he.symm.trans hf)
      obtain rfl : d = d' := Option.some.inj (hd.symm.trans hdu)
      exact ⟨_, hself, Int.le_refl _⟩
    · obtain ⟨d₀, hd₀, hle⟩ := h.tried hf (by simp [hfe, hnot]) hu hdu
      obtain ⟨d₁, hd₁, hle'⟩ := hshorter hd₀
      exact ⟨d₁, hd₁, Int.le_trans hle' hle⟩
  case parent =>
    intro v f hv
    by_cases hvt : v = edge.target
    · subst hvt
      obtain rfl : e = f := Option.some.inj (hparent.symm.trans hv)
      exact ⟨edge, d, he, rfl, hs, by rw [distance?_reach_ne (settled_ne hs), hd], hself⟩
    · rw [parent?_reach_ne hvt] at hv
      obtain ⟨edge', d', hf, htar, hu, hdu, hdv⟩ := h.parent hv
      exact ⟨edge', d', hf, htar, hu, by rw [distance?_reach_ne (settled_ne hu), hdu],
        by rw [distance?_reach_ne hvt, hdv]⟩
  case parented =>
    intro v d' hv hvr
    rcases hcases hv with ⟨rfl, rfl⟩ | ⟨hvt, hv⟩
    · exact ⟨e, hparent⟩
    · rw [parent?_reach_ne hvt]
      exact h.parented hv hvr
  case chain =>
    intro v hv
    obtain ⟨k, hk⟩ := h.chain hv
    exact ⟨k, hk.mono fun w f hw => by rw [settledParent?_reach ht, hw]⟩

/-- An edge that shortens no walk needs no further look. -/
theorem skip (h : Invariant g root (e :: todo) s) {edge : Edge} (he : g.edges[e]? = some edge)
    (hd : s.distance? edge.source = some d)
    (hle : ∃ old, s.distance? edge.target = some old ∧ old ≤ d + edge.cost) :
    Invariant g root todo s := by
  refine { h with tried := fun {f edge' d'} hf hnot hu hdu => ?_ }
  by_cases hfe : f = e
  · subst hfe
    obtain rfl : edge = edge' := Option.some.inj (he.symm.trans hf)
    obtain rfl : d = d' := Option.some.inj (hd.symm.trans hdu)
    exact hle
  · exact h.tried hf (by simp [hfe, hnot]) hu hdu

/-- Trying an edge out of a settled node at its distance. -/
theorem relax (h : Invariant g root (e :: todo) s) (hg : g.Priced root) {edge : Edge}
    (he : g.edges[e]? = some edge) (hs : s.isSettled edge.source = true)
    (hd : s.distance? edge.source = some d) (htop : d + edge.cost ≤ Cost.top)
    (hmono : ∀ {v d'}, s.isSettled v = true → s.distance? v = some d' → d' ≤ d) :
    Invariant g root todo (PathSearch.relax d s e edge) := by
  have hnn := hg.nonneg he
  have hadd : Cost.add d edge.cost = d + edge.cost := by
    have := h.nonneg hg hd
    exact Cost.add_eq (by simp only [Cost.bottom, int64Min]; omega) htop
  rcases relax_eq_self_or_reach d s e edge with ⟨heq, hno⟩ | ⟨heq, ht, hlt⟩
  · rw [heq]
    refine h.skip he hd ?_
    rcases hno with ht | ⟨old, hold, hle⟩
    · obtain ⟨old, hold⟩ := h.reached ht
      have := hmono ht hold
      exact ⟨old, hold, by omega⟩
    · exact ⟨old, hold, hadd ▸ hle⟩
  · rw [heq, hadd]
    exact h.reach hg he hs hd ht (hadd ▸ hlt) hmono

theorem isSettled_relax (d : Int) (s : PathSearch) (e : Nat) (edge : Edge) (v : Nat) :
    (PathSearch.relax d s e edge).isSettled v = s.isSettled v := by
  rcases relax_eq_self_or_reach d s e edge with ⟨heq, -⟩ | ⟨heq, -⟩ <;> rw [heq]
  rfl

theorem distance?_relax_of_isSettled {d : Int} {s : PathSearch} {e : Nat} {edge : Edge} {v : Nat}
    (hv : s.isSettled v = true) : (PathSearch.relax d s e edge).distance? v = s.distance? v := by
  rcases relax_eq_self_or_reach d s e edge with ⟨heq, -⟩ | ⟨heq, ht, -⟩
  · rw [heq]
  · rw [heq, distance?_reach_ne]
    rintro rfl
    rw [ht] at hv
    cases hv

/-- Trying edges out of a settled node, none of which leaves the range of costs. -/
theorem foldl_relax {l : List (Nat × Edge)} (h : Invariant g root (l.map Prod.fst) s)
    (hg : g.Priced root) (hl : ∀ p ∈ l, g.edges[p.1]? = some p.2 ∧ p.2.source = v)
    (hv : s.isSettled v = true) (hd : s.distance? v = some d)
    (htop : ∀ p ∈ l, d + p.2.cost ≤ Cost.top)
    (hmono : ∀ {v d'}, s.isSettled v = true → s.distance? v = some d' → d' ≤ d) :
    Invariant g root [] (l.foldl (fun s p => PathSearch.relax d s p.1 p.2) s) := by
  induction l generalizing s with
  | nil => exact h
  | cons p l ih =>
    obtain ⟨he, hsrc⟩ := hl p (List.mem_cons_self ..)
    have hstep := h.relax hg he (hsrc ▸ hv) (hsrc ▸ hd) (htop p (List.mem_cons_self ..)) hmono
    refine ih hstep (fun q hq => hl q (List.mem_cons_of_mem _ hq)) ?_ ?_
      (fun q hq => htop q (List.mem_cons_of_mem _ hq)) ?_
    · rw [isSettled_relax, hv]
    · rw [distance?_relax_of_isSettled hv, hd]
    · intro w d' hw hd'
      rw [isSettled_relax] at hw
      rw [distance?_relax_of_isSettled hw] at hd'
      exact hmono hw hd'

/-- A walk either ends in a settled node or passes one that waits, and costs no less than that node's
distance. -/
theorem settled_or_waits (h : Invariant g root [] s) (hg : g.Priced root) {es : List Nat}
    (hw : g.Walk root es v) :
    (s.isSettled v = true ∧ ∃ d, s.distance? v = some d ∧ d ≤ g.cost es) ∨
      ∃ z d, s.isSettled z = false ∧ s.distance? z = some d ∧ d ≤ g.cost es := by
  induction es using List.reverseRecOn generalizing v with
  | nil =>
    obtain rfl := Graph.walk_nil_iff.mp hw
    cases hr : s.isSettled root with
    | true => exact .inl ⟨rfl, 0, h.root_distance, Int.le_refl 0⟩
    | false => exact .inr ⟨root, 0, hr, h.root_distance, Int.le_refl 0⟩
  | append_singleton es e ih =>
    obtain ⟨edge, he, rfl, hes⟩ := Graph.walk_concat_iff.mp hw
    have hnn := hg.nonneg he
    rw [Graph.cost_concat he]
    rcases ih hes with ⟨hs, d, hd, hle⟩ | ⟨z, d, hz, hd, hle⟩
    · obtain ⟨d', hd', hle'⟩ := h.tried he (List.not_mem_nil) hs hd
      cases ht : s.isSettled edge.target with
      | true => exact .inl ⟨rfl, d', hd', by omega⟩
      | false => exact .inr ⟨edge.target, d', ht, hd', by omega⟩
    · exact .inr ⟨z, d, hz, hd, by omega⟩

/-- The node at the front of the queue comes with its distance if it is not settled, and no walk to it
costs less. -/
theorem front (h : Invariant g root [] s) (hg : g.Priced root)
    (hp : s.queue.peek? = some ((d, v), ())) (hv : s.isSettled v = false) :
    s.distance? v = some d ∧ ∀ es, g.Walk root es v → d ≤ g.cost es := by
  have least : ∀ {w d'}, s.distance? w = some d' → s.isSettled w = false → d ≤ d' :=
    fun hd' hw => le_of_costThenNumber
      (h.valid.peek?_le costThenNumber_totalPreorder hp _ (h.waits hd' hw))
  constructor
  · obtain ⟨d', hd', hle⟩ := h.queued (PriorityQueue.peek?_mem hp)
    have := least hd' hv
    rw [hd', show d' = d by omega]
  · intro es hes
    rcases h.settled_or_waits hg hes with ⟨hs, -⟩ | ⟨z, d', hz, hd', hle⟩
    · rw [hv] at hs
      cases hs
    · have := least hd' hz
      omega

/-- An entry of a node that is settled already. -/
theorem pop (h : Invariant g root todo s) (hp : s.queue.peek? = some ((d, v), ()))
    (hv : s.isSettled v = true) :
    Invariant g root todo { s with queue := s.queue.pop costThenNumber } := by
  have hperm := PriorityQueue.pop_toList costThenNumber hp
  refine { h with
    sized := ⟨h.sized.distances, h.sized.parents, h.sized.settled⟩
    valid := h.valid.pop costThenNumber_totalPreorder
    waits := fun {w d'} hd' hw => ?_
    queued := fun {w d'} hmem => h.queued (hperm.mem_iff.mpr (List.mem_cons_of_mem _ hmem))
    settled_le := fun hu hd hmem =>
      h.settled_le hu hd (hperm.mem_iff.mpr (List.mem_cons_of_mem _ hmem)) }
  rcases List.mem_cons.mp (hperm.mem_iff.mp (h.waits hd' hw)) with heq | hmem
  · cases heq
    exact absurd hv (by rw [show s.isSettled v = false from hw]; simp)
  · exact hmem

/-- The front node is settled; its edges are still to be tried. -/
theorem mark (h : Invariant g root [] s) (hp : s.queue.peek? = some ((d, v), ()))
    (hv : s.isSettled v = false) (hd : s.distance? v = some d)
    (htodo : ∀ {e edge}, g.edges[e]? = some edge → edge.source = v → e ∈ todo) :
    Invariant g root todo (s.mark v) := by
  have hperm := PriorityQueue.pop_toList costThenNumber hp
  have hin : ∀ {x}, x ∈ (s.mark v).queue.toList → x ∈ s.queue.toList :=
    fun hx => hperm.mem_iff.mpr (List.mem_cons_of_mem _ hx)
  have hlt := h.lt_nodes hd
  have hself := isSettled_mark_self h.sized hlt
  have settled : ∀ {w}, (s.mark v).isSettled w = true → w = v ∨ s.isSettled w = true := by
    intro w hw
    by_cases hne : w = v
    · exact .inl hne
    · exact .inr (by rwa [isSettled_mark_ne hne] at hw)
  refine ⟨h.sized.mark v, h.valid.pop costThenNumber_totalPreorder, h.root_distance,
    h.root_parent, h.walk, ?_, fun hmem => h.queued (hin hmem), ?_, ?_, ?_, ?_, h.parented, ?_⟩
  · intro w d' hd' hw
    have hne : w ≠ v := by
      rintro rfl
      rw [hself] at hw
      cases hw
    rw [isSettled_mark_ne hne] at hw
    rcases List.mem_cons.mp (hperm.mem_iff.mp (h.waits hd' hw)) with heq | hmem
    · cases heq
      exact absurd rfl hne
    · exact hmem
  · intro w hw
    rcases settled hw with rfl | hw
    · exact ⟨d, hd⟩
    · exact h.reached hw
  · intro u du w dw hu hdu hmem
    rcases settled hu with rfl | hu
    · obtain rfl : d = du := Option.some.inj (hd.symm.trans hdu)
      exact le_of_costThenNumber (h.valid.peek?_le costThenNumber_totalPreorder hp _ (hin hmem))
    · exact h.settled_le hu hdu (hin hmem)
  · intro e edge d' he hnot hu hdu
    rcases settled hu with hsv | hu
    · exact absurd (htodo he hsv) hnot
    · exact h.tried he List.not_mem_nil hu hdu
  · intro w e hw
    obtain ⟨edge, d', he, ht, hu, hdu, hdw⟩ := h.parent hw
    exact ⟨edge, d', he, ht, isSettled_mark_of_isSettled hu, hdu, hdw⟩
  · intro w
    refine exists_chain_mark h.sized hlt (fun hne => ?_) h.chain
    obtain ⟨e, he⟩ := h.parented hd hne
    obtain ⟨edge, _, hedge, -, hsource, -⟩ := h.parent he
    exact ⟨e, edge, he, hedge, hsource⟩

/-- One step of the search. -/
theorem settle (h : Invariant g root [] s) (hg : g.Priced root)
    (hp : s.queue.peek? = some ((d, v), ())) :
    Invariant g root [] (PathSearch.settle g.adjacency s d v) := by
  cases hv : s.isSettled v with
  | true =>
    rw [settle_of_isSettled hv]
    exact h.pop hp hv
  | false =>
    rw [settle_of_not_isSettled hv]
    obtain ⟨hd, hopt⟩ := h.front hg hp hv
    have hlt := h.lt_nodes hd
    have hl : ∀ p ∈ (g.adjacency.getD v #[]).toList,
        g.edges[p.1]? = some p.2 ∧ p.2.source = v :=
      fun p hp => (Graph.mem_adjacency_iff hlt).mp hp
    refine (h.mark hp hv hd fun {e edge} he hsrc => ?_).foldl_relax hg hl
      (isSettled_mark_self h.sized hlt) hd ?_ ?_
    · exact List.mem_map.mpr ⟨(e, edge), (Graph.mem_adjacency_iff hlt).mpr ⟨he, hsrc⟩, rfl⟩
    · intro p hmem
      obtain ⟨he, hsrc⟩ := hl p hmem
      obtain ⟨es, hes, -⟩ := h.walk hd
      obtain ⟨fs, hfs, htop⟩ := hg.inRange he (hsrc ▸ hes)
      have := hopt fs (hsrc ▸ hfs)
      omega
    · intro w d' hw hd'
      by_cases hne : w = v
      · subst hne
        rw [distance?_mark, hd] at hd'
        cases hd'
        exact Int.le_refl _
      · rw [isSettled_mark_ne hne] at hw
        exact h.settled_le hw hd' (PriorityQueue.peek?_mem hp)

end Invariant

/-- How many steps are left at most: entries of the queue, and edges that may add one. -/
def work (g : Graph) (s : PathSearch) : Nat :=
  s.queue.size + g.edges.toList.countP fun edge => !s.isSettled edge.source

theorem size_relax_le (d : Int) (s : PathSearch) (e : Nat) (edge : Edge) :
    (relax d s e edge).queue.size ≤ s.queue.size + 1 := by
  rcases relax_eq_self_or_reach d s e edge with ⟨heq, -⟩ | ⟨heq, -⟩ <;> rw [heq]
  · omega
  · exact Nat.le_refl _

theorem size_foldl_relax_le (d : Int) (l : List (Nat × Edge)) (s : PathSearch) :
    (l.foldl (fun s p => relax d s p.1 p.2) s).queue.size ≤ s.queue.size + l.length := by
  induction l generalizing s with
  | nil => exact Nat.le_refl _
  | cons p l ih =>
    have h := size_relax_le d s p.1 p.2
    have := ih (relax d s p.1 p.2)
    rw [List.foldl_cons, List.length_cons]
    omega

theorem isSettled_foldl_relax (d : Int) (l : List (Nat × Edge)) (s : PathSearch) (w : Nat) :
    (l.foldl (fun s p => relax d s p.1 p.2) s).isSettled w = s.isSettled w := by
  induction l generalizing s with
  | nil => rfl
  | cons p l ih => rw [List.foldl_cons, ih, Invariant.isSettled_relax]

theorem countP_mark {g : Graph} {s : PathSearch} {v : Nat} (hs : s.Sized g) (hlt : v < g.nodes)
    (hv : s.isSettled v = false) (l : List Edge) :
    l.countP (fun edge => !(s.mark v).isSettled edge.source) + l.countP (·.source == v) =
      l.countP fun edge => !s.isSettled edge.source := by
  induction l with
  | nil => rfl
  | cons edge l ih =>
    simp only [List.countP_cons]
    by_cases h : edge.source = v
    · have hself := isSettled_mark_self hs hlt
      simp only [h, hself, hv]
      simp
      omega
    · simp only [isSettled_mark_ne h, beq_iff_eq, h]
      simp
      omega

theorem length_adjacency {g : Graph} {v : Nat} (hv : v < g.nodes) :
    (g.adjacency.getD v #[]).toList.length = g.edges.toList.countP (·.source == v) := by
  rw [Graph.adjacency_toList hv, List.length_map, ← List.countP_eq_length_filter,
    show (fun p : Edge × Nat => p.1.source == v) = (fun edge => edge.source == v) ∘ Prod.fst from rfl,
    ← List.countP_map, List.zipIdx_map_fst]

/-- A step takes an entry out of the queue, and each edge that may add one is tried only once. -/
theorem work_settle_lt {g : Graph} {v : Nat} {d : Int} {s : PathSearch}
    (hvalid : s.queue.Valid costThenNumber) (hsized : s.Sized g) (hlt : v < g.nodes)
    (hp : s.queue.peek? = some ((d, v), ())) :
    (settle g.adjacency s d v).work g < s.work g := by
  have hpop : (s.queue.pop costThenNumber).size + 1 = s.queue.size := by
    rw [hvalid.size_eq, (hvalid.pop costThenNumber_totalPreorder).size_eq,
      (PriorityQueue.pop_toList costThenNumber hp).length_eq, List.length_cons]
  cases hv : s.isSettled v with
  | true =>
    rw [settle_of_isSettled hv]
    have hcount : ({ s with queue := s.queue.pop costThenNumber } : PathSearch).work g =
      (s.queue.pop costThenNumber).size + g.edges.toList.countP fun edge =>
        !s.isSettled edge.source := rfl
    rw [hcount, work]
    omega
  | false =>
    rw [settle_of_not_isSettled hv]
    have hsize := size_foldl_relax_le d (g.adjacency.getD v #[]).toList (s.mark v)
    have hcount := countP_mark hsized hlt hv g.edges.toList
    rw [length_adjacency hlt, show (s.mark v).queue.size = (s.queue.pop costThenNumber).size
      from rfl] at hsize
    show ((g.adjacency.getD v #[]).toList.foldl (fun s p => relax d s p.1 p.2)
      (s.mark v)).work g < s.work g
    simp only [work, isSettled_foldl_relax]
    omega

/-- What every step keeps holds at the end of the search, when nothing waits. -/
theorem run_spec {g : Graph} {P : PathSearch → Prop} {fuel : Nat} {s : PathSearch}
    (hvalid : ∀ {s}, P s → s.queue.Valid costThenNumber) (hsized : ∀ {s}, P s → s.Sized g)
    (hlt : ∀ {s d v}, P s → ((d, v), ()) ∈ s.queue.toList → v < g.nodes)
    (hstep : ∀ {s d v}, P s → s.queue.peek? = some ((d, v), ()) → P (settle g.adjacency s d v))
    (h : P s) (hf : s.work g ≤ fuel) :
    P (run g.adjacency fuel s) ∧ (run g.adjacency fuel s).queue.toList = [] := by
  induction fuel generalizing s with
  | zero =>
    unfold work at hf
    have hlen := (hvalid h).size_eq
    exact ⟨h, List.eq_nil_of_length_eq_zero (show s.queue.toList.length = 0 by omega)⟩
  | succ fuel ih =>
    unfold run
    cases hp : s.queue.peek? with
    | none => exact ⟨h, PriorityQueue.peek?_eq_none_iff.mp hp⟩
    | some p =>
      obtain ⟨⟨d, v⟩, ⟨⟩⟩ := p
      have := work_settle_lt (hvalid h) (hsized h) (hlt h (PriorityQueue.peek?_mem hp)) hp
      exact ih (hstep h hp) (by omega)

/-- The search ends when nothing waits, and then no walk is cheaper than a distance. -/
theorem run_invariant {g : Graph} {root fuel : Nat} {s : PathSearch} (hg : g.Priced root)
    (h : Invariant g root [] s) (hf : s.work g ≤ fuel) :
    Invariant g root [] (run g.adjacency fuel s) ∧ (run g.adjacency fuel s).queue.toList = [] := by
  refine run_spec Invariant.valid Invariant.sized (fun h hmem => ?_) (fun h hp => h.settle hg hp) h hf
  obtain ⟨d', hd', -⟩ := h.queued hmem
  exact h.lt_nodes hd'

theorem work_start_le (g : Graph) (root : Nat) : (start g.nodes root).work g ≤ g.edges.size + 1 := by
  have hcount := List.countP_le_length (l := g.edges.toList)
    (p := fun edge => !(start g.nodes root).isSettled edge.source)
  have hsize : (start g.nodes root).queue.size = 1 := rfl
  rw [Array.length_toList] at hcount
  unfold work
  omega

theorem start_sized (g : Graph) (root : Nat) : (start g.nodes root).Sized g :=
  ⟨by simp [start], by simp [start], by simp [start]⟩

theorem mem_queue_start {nodes root : Nat} {x : (Int × Nat) × Unit} :
    x ∈ (start nodes root).queue.toList ↔ x = ((0, root), ()) := by
  rw [show (start nodes root).queue =
    ({} : PriorityQueue (Int × Nat) Unit).push costThenNumber (0, root) () from rfl,
    (PriorityQueue.push_toList costThenNumber {} (0, root) ()).mem_iff]
  simp

theorem isSettled_start (nodes root v : Nat) : (start nodes root).isSettled v = false := by
  simp only [isSettled, start, Array.getD_eq_getD_getElem?, Array.getElem?_replicate]
  split <;> rfl

theorem parent?_start (nodes root v : Nat) : (start nodes root).parent? v = none := by
  simp only [parent?, start, Array.getElem?_replicate]
  split <;> rfl

theorem distance?_start {nodes root v : Nat} {d : Int} (hr : root < nodes)
    (hv : (start nodes root).distance? v = some d) : v = root ∧ d = 0 := by
  by_cases hne : v = root
  · subst hne
    simpa [distance?, start, hr, eq_comm] using hv
  · simp only [distance?, start, Array.getElem?_setIfInBounds_ne (Ne.symm hne),
      Array.getElem?_replicate] at hv
    split at hv <;> simp at hv

theorem start_invariant {g : Graph} {root : Nat} (hr : root < g.nodes) :
    Invariant g root [] (start g.nodes root) := by
  have hd := fun {v d} => distance?_start (v := v) (d := d) hr
  have hp := parent?_start g.nodes root
  have hs := isSettled_start g.nodes root
  have hroot : (start g.nodes root).distance? root = some 0 := by simp [distance?, start, hr]
  refine ⟨start_sized g root,
    PriorityQueue.valid_empty.push costThenNumber_totalPreorder _ _, hroot, hp root, ?_, ?_, ?_, ?_,
    ?_, ?_, ?_, ?_, ?_⟩
  · intro v d hv
    obtain ⟨rfl, rfl⟩ := hd hv
    exact ⟨[], .nil v, rfl⟩
  · intro v d hv _
    obtain ⟨rfl, rfl⟩ := hd hv
    exact mem_queue_start.mpr rfl
  · intro v d hv
    cases mem_queue_start.mp hv
    exact ⟨0, hroot, Int.le_refl 0⟩
  · intro v hv
    rw [hs] at hv
    cases hv
  · intro u _ _ _ hu
    rw [hs] at hu
    cases hu
  · intro _ edge _ _ _ hu
    rw [hs] at hu
    cases hu
  · intro v e hv
    rw [hp] at hv
    cases hv
  · intro v d hv hne
    exact absurd (hd hv).1 hne
  · intro v hv
    rw [hs] at hv
    cases hv

end PathSearch

/-- The tree that the search finds. -/
theorem Graph.shortestPathTree_isShortestPathTree {g : Graph} {root : Nat} (hg : g.Priced root)
    (sink : Nat) : g.IsShortestPathTree (g.shortestPathTree root sink) := by
  have hstart := PathSearch.start_invariant hg.root_lt
  obtain ⟨h, hempty⟩ := PathSearch.run_invariant hg hstart (PathSearch.work_start_le g root)
  have hsettled : ∀ {v d}, (PathSearch.run g.adjacency (g.edges.size + 1)
      (PathSearch.start g.nodes root)).distance? v = some d → (PathSearch.run g.adjacency
      (g.edges.size + 1) (PathSearch.start g.nodes root)).isSettled v = true := by
    intro v d hv
    by_contra hs
    have := h.waits hv (by simpa using hs)
    rw [hempty] at this
    cases this
  refine ⟨h.root_distance, h.root_parent, h.walk, fun {v es} hw => ?_, fun {v e} hv => ?_,
    h.parented, fun {v d} hv => ?_⟩
  · rcases h.settled_or_waits hg hw with ⟨-, hd⟩ | ⟨z, d, hz, hd, -⟩
    · exact hd
    · rw [hsettled hd] at hz
      cases hz
  · obtain ⟨edge, d, he, ht, -, hd, hv⟩ := h.parent hv
    exact ⟨edge, d, he, ht, hd, hv⟩
  · obtain ⟨k, hk⟩ := h.chain (hsettled hv)
    exact ⟨k, hk.mono fun _ _ => PathSearch.parent?_of_settledParent?⟩

end RankedPlans
