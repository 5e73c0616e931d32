import RankedPlans.Proofs.Graph.ShortestPaths

/-! Whichever sums of costs leave their range, the search for shortest paths gives a distance to every node
that a walk leads to. Distances may then be wrong, but none is missing. -/

namespace RankedPlans

/-- Edges join nodes of the graph. -/
structure Graph.Joined (g : Graph) (root : Nat) : Prop where
  root_lt : root < g.nodes
  source_lt : ∀ {e : Nat} {edge : Edge}, g.edges[e]? = some edge → edge.source < g.nodes
  target_lt : ∀ {e : Nat} {edge : Edge}, g.edges[e]? = some edge → edge.target < g.nodes

namespace PathSearch

variable {g : Graph} {root v : Nat} {d : Int} {todo : List Nat} {s : PathSearch}

/-- What holds between two steps, the edges in `todo` not having been tried: a node with a distance is
settled or waits, and the edges of a settled node lead to nodes with a distance. -/
structure Covering (g : Graph) (root : Nat) (todo : List Nat) (s : PathSearch) : Prop where
  sized : s.Sized g
  valid : s.queue.Valid costThenNumber
  root : ∃ d, s.distance? root = some d
  settled : ∀ {v}, s.isSettled v = true → ∃ d, s.distance? v = some d
  waits : ∀ {v d}, s.distance? v = some d → s.isSettled v = false →
    ∃ d', ((d', v), ()) ∈ s.queue.toList
  queued : ∀ {v d}, ((d, v), ()) ∈ s.queue.toList → ∃ d', s.distance? v = some d'
  tried : ∀ {e} {edge : Edge}, g.edges[e]? = some edge → e ∉ todo → s.isSettled edge.source = true →
    ∃ d, s.distance? edge.target = some d

namespace Covering

/-- A node keeps a distance once it has one. -/
theorem exists_distance?_reach {u w e : Nat} {d' : Int} (hs : s.Sized g) (hu : u < g.nodes)
    (hw : ∃ d, s.distance? w = some d) : ∃ d, (s.reach u d' e).distance? w = some d := by
  by_cases h : w = u
  · subst h
    exact ⟨d', distance?_reach_self hs hu⟩
  · rwa [distance?_reach_ne h]

theorem reach {u e : Nat} (h : Covering g root todo s) (hu : u < g.nodes) (d : Int) :
    Covering g root todo (s.reach u d e) where
  sized := h.sized.reach u d e
  valid := h.valid.push costThenNumber_totalPreorder _ _
  root := exists_distance?_reach h.sized hu h.root
  settled hv := exists_distance?_reach h.sized hu (h.settled hv)
  waits {w d'} hw hs := by
    rcases distance?_reach_cases h.sized hu hw with ⟨rfl, rfl⟩ | ⟨-, hw⟩
    · exact ⟨d, mem_queue_reach.mpr (.inl rfl)⟩
    · obtain ⟨d', hmem⟩ := h.waits hw hs
      exact ⟨d', mem_queue_reach.mpr (.inr hmem)⟩
  queued {w d'} hmem := by
    rcases mem_queue_reach.mp hmem with heq | hmem
    · cases heq
      exact ⟨d, distance?_reach_self h.sized hu⟩
    · exact exists_distance?_reach h.sized hu (h.queued hmem)
  tried he hnot hs := exists_distance?_reach h.sized hu (h.tried he hnot hs)

/-- An edge whose target has a distance need not be tried again. -/
theorem done {e : Nat} {edge : Edge} (h : Covering g root (e :: todo) s) (he : g.edges[e]? = some edge)
    (hd : ∃ d, s.distance? edge.target = some d) : Covering g root todo s :=
  { h with
    tried := fun {e'} {edge'} he' hnot hs => by
      by_cases heq : e' = e
      · subst heq
        obtain rfl := Option.some.inj (he.symm.trans he')
        exact hd
      · exact h.tried he' (by simp [heq, hnot]) hs }

theorem relax {e : Nat} {edge : Edge} (h : Covering g root (e :: todo) s) (hg : g.Joined root)
    (he : g.edges[e]? = some edge) (d : Int) :
    Covering g root todo (PathSearch.relax d s e edge) := by
  have hlt := hg.target_lt he
  rcases relax_eq_self_or_reach d s e edge with ⟨heq, hs | ⟨old, hold, -⟩⟩ | ⟨heq, -⟩
  · rw [heq]
    exact h.done he (h.settled hs)
  · rw [heq]
    exact h.done he ⟨old, hold⟩
  · rw [heq]
    exact (h.reach hlt _).done he ⟨_, distance?_reach_self h.sized hlt⟩

theorem foldl_relax {l : List (Nat × Edge)} (h : Covering g root (l.map Prod.fst) s)
    (hg : g.Joined root) (hl : ∀ p ∈ l, g.edges[p.1]? = some p.2) (d : Int) :
    Covering g root [] (l.foldl (fun s p => PathSearch.relax d s p.1 p.2) s) := by
  induction l generalizing s with
  | nil => exact h
  | cons p l ih =>
    exact ih (h.relax hg (hl p (List.mem_cons_self ..)) d)
      fun q hq => hl q (List.mem_cons_of_mem _ hq)

/-- An entry of a node that is settled already. -/
theorem pop (h : Covering g root todo s) (hp : s.queue.peek? = some ((d, v), ()))
    (hv : s.isSettled v = true) :
    Covering g root todo { s with queue := s.queue.pop costThenNumber } := by
  have hperm := PriorityQueue.pop_toList costThenNumber hp
  refine { h with
    sized := ⟨h.sized.distances, h.sized.parents, h.sized.settled⟩
    valid := h.valid.pop costThenNumber_totalPreorder
    waits := fun {w d'} hd' hw => ?_
    queued := fun {w d'} hmem => h.queued (hperm.mem_iff.mpr (List.mem_cons_of_mem _ hmem)) }
  obtain ⟨d'', hmem⟩ := h.waits hd' hw
  rcases List.mem_cons.mp (hperm.mem_iff.mp hmem) with heq | hmem
  · cases heq
    cases hv.symm.trans hw
  · exact ⟨d'', hmem⟩

/-- The front node is settled; its edges are still to be tried. -/
theorem mark (h : Covering g root [] s) (hp : s.queue.peek? = some ((d, v), ()))
    (htodo : ∀ {e edge}, g.edges[e]? = some edge → edge.source = v → e ∈ todo) :
    Covering g root todo (s.mark v) := by
  have hperm := PriorityQueue.pop_toList costThenNumber hp
  obtain ⟨dv, hdv⟩ := h.queued (PriorityQueue.peek?_mem hp)
  have hself := isSettled_mark_self h.sized (h.sized.lt_nodes hdv)
  refine ⟨h.sized.mark v, h.valid.pop costThenNumber_totalPreorder, h.root, fun {w} hw => ?_,
    fun {w d'} hd' hw => ?_,
    fun {w d'} hmem => h.queued (hperm.mem_iff.mpr (List.mem_cons_of_mem _ hmem)),
    fun {e edge} he hnot hs => ?_⟩
  · by_cases hne : w = v
    · exact ⟨dv, hne ▸ hdv⟩
    · rw [isSettled_mark_ne hne] at hw
      exact h.settled hw
  · have hne : w ≠ v := by
      rintro rfl
      cases hself.symm.trans hw
    rw [isSettled_mark_ne hne] at hw
    obtain ⟨d'', hmem⟩ := h.waits hd' hw
    rcases List.mem_cons.mp (hperm.mem_iff.mp hmem) with heq | hmem
    · cases heq
      exact absurd rfl hne
    · exact ⟨d'', hmem⟩
  · by_cases hne : edge.source = v
    · exact absurd (htodo he hne) hnot
    · rw [isSettled_mark_ne hne] at hs
      exact h.tried he List.not_mem_nil hs

theorem lt_nodes (h : Covering g root todo s) (hmem : ((d, v), ()) ∈ s.queue.toList) : v < g.nodes := by
  obtain ⟨d', hd'⟩ := h.queued hmem
  exact h.sized.lt_nodes hd'

theorem settle (h : Covering g root [] s) (hg : g.Joined root)
    (hp : s.queue.peek? = some ((d, v), ())) :
    Covering g root [] (PathSearch.settle g.adjacency s d v) := by
  cases hv : s.isSettled v with
  | true =>
    rw [settle_of_isSettled hv]
    exact h.pop hp hv
  | false =>
    rw [settle_of_not_isSettled hv]
    have hmem : ∀ {e : Nat} {edge : Edge}, (e, edge) ∈ _ ↔ _ := Graph.mem_adjacency_iff
      (h.lt_nodes (PriorityQueue.peek?_mem hp))
    refine (h.mark hp fun {e edge} he hsource => ?_).foldl_relax hg (fun p hp => (hmem.mp hp).1) d
    exact List.mem_map.mpr ⟨(e, edge), hmem.mpr ⟨he, hsource⟩, rfl⟩

theorem run {fuel : Nat} (h : Covering g root [] s) (hg : g.Joined root) (hf : s.work g ≤ fuel) :
    Covering g root [] (PathSearch.run g.adjacency fuel s) ∧
      (PathSearch.run g.adjacency fuel s).queue.toList = [] :=
  run_spec Covering.valid Covering.sized Covering.lt_nodes (fun h hp => h.settle hg hp) h hf

theorem start (hr : root < g.nodes) : Covering g root [] (PathSearch.start g.nodes root) := by
  have hroot : (PathSearch.start g.nodes root).distance? root = some 0 := by
    simp [distance?, PathSearch.start, hr]
  refine ⟨start_sized g root, PriorityQueue.valid_empty.push costThenNumber_totalPreorder _ _,
    ⟨0, hroot⟩, fun {v} hv => ?_, fun {v d} hd _ => ?_, fun {v d} hmem => ?_,
    fun {e edge} _ _ hs => ?_⟩
  · cases (isSettled_start ..).symm.trans hv
  · obtain ⟨rfl, rfl⟩ := distance?_start hr hd
    exact ⟨0, mem_queue_start.mpr rfl⟩
  · cases mem_queue_start.mp hmem
    exact ⟨0, hroot⟩
  · cases (isSettled_start ..).symm.trans hs

theorem isSettled_of_distance? (h : Covering g root todo s) (hempty : s.queue.toList = [])
    (hv : s.distance? v = some d) : s.isSettled v = true := by
  by_contra hs
  obtain ⟨d', hmem⟩ := h.waits hv (eq_false_of_ne_true hs)
  rw [hempty] at hmem
  cases hmem

/-- When nothing waits, the nodes with a distance are closed under edges. -/
theorem exists_distance? (h : Covering g root [] s) (hempty : s.queue.toList = []) {u : Nat}
    {es : List Nat} (hes : g.Walk u es v) (hu : ∃ d, s.distance? u = some d) :
    ∃ d, s.distance? v = some d := by
  induction hes with
  | nil => exact hu
  | @cons e w edge es he _ ih =>
    obtain ⟨d, hd⟩ := hu
    exact ih (h.tried he List.not_mem_nil (h.isSettled_of_distance? hempty hd))

end Covering

end PathSearch

/-- The tree has a distance to every node that a walk from the root leads to. -/
theorem Graph.Joined.exists_distance? {g : Graph} {root v : Nat} {es : List Nat} (hg : g.Joined root)
    (sink : Nat) (hes : g.Walk root es v) : ∃ d, (g.shortestPathTree root sink).distance? v = some d := by
  obtain ⟨h, hempty⟩ := (PathSearch.Covering.start hg.root_lt).run hg
    (PathSearch.work_start_le g root)
  exact h.exists_distance? hempty hes h.root

end RankedPlans
