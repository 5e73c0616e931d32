import RankedPlans.Proofs.Graph.Reachability

/-! Whatever the edges cost, the search for shortest paths finds a tree: parent edges lead from every node that can
be reached up to the root. Where sums of costs leave their range its paths need not be the cheapest. -/

namespace RankedPlans

/-- Parent edges end in their nodes, and lead from every node with a distance up to the root. -/
structure Graph.IsSpanningTree (g : Graph) (t : ShortestPathTree) : Prop where
  root_parent : t.parent? t.root = none
  parent : ∀ {v e}, t.parent? v = some e → ∃ edge, g.edges[e]? = some edge ∧ edge.target = v
  chain : ∀ {v d}, t.distance? v = some d → ∃ k, ParentChain g t.root t.parent? k v

theorem Graph.IsShortestPathTree.isSpanningTree {g : Graph} {t : ShortestPathTree} (ht : g.IsShortestPathTree t) :
    g.IsSpanningTree t where
  root_parent := ht.root_parent
  parent hv := by
    obtain ⟨edge, _, he, htarget, -⟩ := ht.parent hv
    exact ⟨edge, he, htarget⟩
  chain := ht.chain

theorem Graph.Priced.joined {g : Graph} {root : Nat} (hg : g.Priced root) : g.Joined root :=
  ⟨hg.root_lt, hg.source_lt, hg.target_lt⟩

theorem Graph.Joined.of_forall_mem {g : Graph} {root : Nat} (hroot : root < g.nodes)
    (hedges : ∀ edge ∈ g.edges.toList, edge.source < g.nodes ∧ edge.target < g.nodes) : g.Joined root where
  root_lt := hroot
  source_lt he := (hedges _ (Array.mem_toList_iff.mpr (Array.mem_of_getElem? he))).1
  target_lt he := (hedges _ (Array.mem_toList_iff.mpr (Array.mem_of_getElem? he))).2

namespace PathSearch

variable {g : Graph} {root v : Nat} {d : Int} {s : PathSearch}

/-- What holds between two steps: the root is settled before any other node is reached, and parent edges come from
settled nodes, over which they lead up to the root. -/
structure Rooted (g : Graph) (root : Nat) (s : PathSearch) : Prop where
  first : ∀ {v d}, s.distance? v = some d → s.isSettled root = false → v = root
  root_parent : s.parent? root = none
  parent : ∀ {v e}, s.parent? v = some e →
    ∃ edge, g.edges[e]? = some edge ∧ edge.target = v ∧ s.isSettled edge.source = true
  parented : ∀ {v d}, s.distance? v = some d → v ≠ root → ∃ e, s.parent? v = some e
  chain : ∀ {v}, s.isSettled v = true → ∃ k, ParentChain g root s.settledParent? k v

namespace Rooted

/-- An edge out of a settled node becomes the parent edge of a node that is not settled. -/
theorem reach {e : Nat} {edge : Edge} (h : Rooted g root s) (hs : s.Sized g) (he : g.edges[e]? = some edge)
    (hlt : edge.target < g.nodes) (hroot : s.isSettled root = true) (hsource : s.isSettled edge.source = true)
    (htarget : s.isSettled edge.target = false) (d : Int) : Rooted g root (s.reach edge.target d e) := by
  have hparent : (s.reach edge.target d e).parent? edge.target = some e := parent?_reach_self hs hlt
  have hne : root ≠ edge.target := by
    rintro heq
    rw [heq, htarget] at hroot
    cases hroot
  constructor
  case first =>
    intro v d' _ hfalse
    rw [isSettled_reach, hroot] at hfalse
    cases hfalse
  case root_parent => rw [parent?_reach_ne hne, h.root_parent]
  case parent =>
    intro v f hv
    by_cases hvt : v = edge.target
    · subst hvt
      obtain rfl : e = f := Option.some.inj (hparent.symm.trans hv)
      exact ⟨edge, he, rfl, hsource⟩
    · rw [parent?_reach_ne hvt] at hv
      exact h.parent hv
  case parented =>
    intro v d' hv hvr
    rcases distance?_reach_cases hs hlt hv with ⟨rfl, -⟩ | ⟨hvt, hv⟩
    · exact ⟨e, hparent⟩
    · rw [parent?_reach_ne hvt]
      exact h.parented hv hvr
  case chain =>
    intro v hv
    obtain ⟨k, hk⟩ := h.chain hv
    exact ⟨k, hk.mono fun w f hw => by rw [settledParent?_reach htarget, hw]⟩

theorem relax {e : Nat} {edge : Edge} (h : Rooted g root s) (hs : s.Sized g) (he : g.edges[e]? = some edge)
    (hlt : edge.target < g.nodes) (hroot : s.isSettled root = true) (hsource : s.isSettled edge.source = true)
    (d : Int) : Rooted g root (PathSearch.relax d s e edge) := by
  rcases relax_eq_self_or_reach d s e edge with ⟨heq, -⟩ | ⟨heq, htarget, -⟩
  · rwa [heq]
  · rw [heq]
    exact h.reach hs he hlt hroot hsource htarget _

/-- Trying edges out of a settled node. -/
theorem foldl_relax {l : List (Nat × Edge)} (h : Rooted g root s) (hc : Covering g root (l.map Prod.fst) s)
    (hg : g.Joined root) (hl : ∀ p ∈ l, g.edges[p.1]? = some p.2 ∧ p.2.source = v)
    (hroot : s.isSettled root = true) (hv : s.isSettled v = true) (d : Int) :
    Rooted g root (l.foldl (fun s p => PathSearch.relax d s p.1 p.2) s) := by
  induction l generalizing s with
  | nil => exact h
  | cons p l ih =>
    obtain ⟨he, hsource⟩ := hl p List.mem_cons_self
    have hstep := h.relax hc.sized he (hg.target_lt he) hroot (hsource ▸ hv) d
    refine ih hstep (hc.relax hg he d) (fun q hq => hl q (List.mem_cons_of_mem _ hq)) ?_ ?_
    · rw [Invariant.isSettled_relax, hroot]
    · rw [Invariant.isSettled_relax, hv]

/-- Settling a node with a distance, which is the root as long as that is not settled. -/
theorem mark (h : Rooted g root s) (hs : s.Sized g) (hd : s.distance? v = some d) :
    Rooted g root (s.mark v) ∧ (s.mark v).isSettled root = true := by
  have hroot : (s.mark v).isSettled root = true := by
    cases hr : s.isSettled root with
    | true => exact isSettled_mark_of_isSettled hr
    | false =>
      obtain rfl := h.first hd hr
      exact isSettled_mark_self hs (hs.lt_nodes hd)
  refine ⟨⟨fun _ hfalse => ?_, h.root_parent, fun hw => ?_, h.parented,
    exists_chain_mark hs (hs.lt_nodes hd) (fun hne => ?_) h.chain⟩, hroot⟩
  · rw [hroot] at hfalse
    cases hfalse
  · obtain ⟨edge, he, htarget, hsource⟩ := h.parent hw
    exact ⟨edge, he, htarget, isSettled_mark_of_isSettled hsource⟩
  · obtain ⟨e, he⟩ := h.parented hd hne
    obtain ⟨edge, hedge, -, hsource⟩ := h.parent he
    exact ⟨e, edge, he, hedge, hsource⟩

/-- One step of the search. -/
theorem settle (h : Rooted g root s) (hc : Covering g root [] s) (hg : g.Joined root)
    (hp : s.queue.peek? = some ((d, v), ())) : Rooted g root (PathSearch.settle g.adjacency s d v) := by
  cases hv : s.isSettled v with
  | true =>
    rw [settle_of_isSettled hv]
    exact ⟨h.first, h.root_parent, h.parent, h.parented, h.chain⟩
  | false =>
    rw [settle_of_not_isSettled hv]
    obtain ⟨dv, hdv⟩ := hc.queued (PriorityQueue.peek?_mem hp)
    have hlt := hc.sized.lt_nodes hdv
    have hmem : ∀ {e : Nat} {edge : Edge}, (e, edge) ∈ _ ↔ _ := Graph.mem_adjacency_iff hlt
    obtain ⟨hmark, hroot⟩ := h.mark hc.sized hdv
    refine hmark.foldl_relax (hc.mark hp fun {e edge} he hsource => ?_) hg (fun p hp => hmem.mp hp) hroot
      (isSettled_mark_self hc.sized hlt) d
    exact List.mem_map.mpr ⟨(e, edge), hmem.mpr ⟨he, hsource⟩, rfl⟩

theorem run {fuel : Nat} (h : Rooted g root s) (hc : Covering g root [] s) (hg : g.Joined root)
    (hf : s.work g ≤ fuel) : (Rooted g root (PathSearch.run g.adjacency fuel s) ∧
      Covering g root [] (PathSearch.run g.adjacency fuel s)) ∧
        (PathSearch.run g.adjacency fuel s).queue.toList = [] :=
  run_spec (P := fun s => Rooted g root s ∧ Covering g root [] s) (fun h => h.2.valid) (fun h => h.2.sized)
    (fun h => h.2.lt_nodes) (fun h hp => ⟨h.1.settle h.2 hg hp, h.2.settle hg hp⟩) ⟨h, hc⟩ hf

theorem start (hr : root < g.nodes) : Rooted g root (PathSearch.start g.nodes root) := by
  have hparent := parent?_start g.nodes root
  refine ⟨fun hd _ => (distance?_start hr hd).1, hparent root, fun {v e} hv => ?_,
    fun hd hne => absurd (distance?_start hr hd).1 hne, fun {v} hv => ?_⟩
  · rw [hparent] at hv
    cases hv
  · cases (isSettled_start ..).symm.trans hv

end Rooted

end PathSearch

/-- The tree that the search finds. -/
theorem Graph.Joined.isSpanningTree {g : Graph} {root : Nat} (hg : g.Joined root) (sink : Nat) :
    g.IsSpanningTree (g.shortestPathTree root sink) := by
  obtain ⟨⟨h, hc⟩, hempty⟩ := (PathSearch.Rooted.start hg.root_lt).run (.start hg.root_lt) hg
    (PathSearch.work_start_le g root)
  refine ⟨h.root_parent, fun {v e} hv => ?_, fun {v d} hv => ?_⟩
  · obtain ⟨edge, he, htarget, -⟩ := h.parent hv
    exact ⟨edge, he, htarget⟩
  · obtain ⟨k, hk⟩ := h.chain (hc.isSettled_of_distance? hempty hv)
    exact ⟨k, hk.mono fun _ _ => PathSearch.parent?_of_settledParent?⟩

end RankedPlans
