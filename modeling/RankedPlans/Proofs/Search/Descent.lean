import Mathlib.Algebra.GroupWithZero.Nat
import Mathlib.Algebra.Order.BigOperators.Group.List
import Mathlib.Algebra.Order.Group.Nat
import RankedPlans.Proofs.Search.Representatives

/-! Why a search comes to an end. A node that is met waits, is taken and may be opened again, but only at a
lower cost. So every node can be ranked such that no operation lets it rise and taking it lets it fall. -/

namespace RankedPlans

/-- How far a node is from where nothing more can happen to it. -/
def SearchNode.rank (n : SearchNode) : Nat :=
  match n.status with
  | .unseen => 2 * Cost.top.toNat + 2
  | .waiting => 2 * n.cost.toNat + 1
  | .closed => 2 * n.cost.toNat
  | .deadEnd => 0

/-- What becomes of a node when edges are tried: it does not rise, and is closed only if it was closed at the
same cost. -/
structure SearchNode.Yields (n n' : SearchNode) : Prop where
  rank_le : n'.rank ≤ n.rank
  closed : n'.status = .closed → n.status = .closed ∧ n'.cost = n.cost

theorem SearchNode.Yields.refl (n : SearchNode) : n.Yields n :=
  ⟨Nat.le_refl _, fun h => ⟨h, rfl⟩⟩

namespace Search

variable {c : SearchSetting} {s s' s'' : Search} {v : Nat} {x : State} {cost : Int}

def Descends (s s' : Search) : Prop :=
  ∀ w, (s.node w).Yields (s'.node w)

theorem Descends.of_node (h : ∀ w, s'.node w = s.node w) : Descends s s' :=
  fun w => h w ▸ .refl _

theorem Descends.refl (s : Search) : Descends s s :=
  .of_node fun _ => rfl

theorem Descends.trans (h : Descends s s') (h' : Descends s' s'') : Descends s s'' := by
  refine fun w => ⟨Nat.le_trans (h' w).rank_le (h w).rank_le, fun hclosed => ?_⟩
  obtain ⟨hclosed', hcost'⟩ := (h' w).closed hclosed
  obtain ⟨hclosed, hcost⟩ := (h w).closed hclosed'
  exact ⟨hclosed, hcost'.trans hcost⟩

/-- One node changes, and all others stay as they are. -/
theorem Descends.set {n : SearchNode} (h : (s.node v).Yields n) (o : OpenList) (k : Statistics) :
    Descends s ⟨s.table, s.nodes.setIfInBounds v n, s.edges, o, k⟩ := by
  intro w
  rw [show node ⟨s.table, s.nodes.setIfInBounds v n, s.edges, o, k⟩ w = _ from
    getD_setIfInBounds s.nodes v w n]
  split
  · rename_i hw
    exact hw.1 ▸ h
  · exact .refl _

theorem rank_waiting_le {n : SearchNode} {estimate : Int} {via : Option Nat} (hcost : cost ≤ Cost.top)
    (hn : n.status = .unseen) :
    SearchNode.rank ⟨cost, estimate, via, .waiting, n.expanded⟩ ≤ n.rank := by
  have := Int.toNat_le_toNat hcost
  simp only [SearchNode.rank, hn]
  omega

theorem rank_cheaper_le {n : SearchNode} {via : Option Nat} (hcost : 0 ≤ cost) (hlt : cost < n.cost)
    (hn : n.status = .waiting ∨ n.status = .closed) :
    SearchNode.rank ⟨cost, n.estimate, via, .waiting, n.expanded⟩ ≤ n.rank := by
  rcases hn with hn | hn
  · simp only [SearchNode.rank, hn]
    omega
  · simp only [SearchNode.rank, hn]
    omega

/-- An edge that is tried lets no node rise. -/
theorem descends_relax (c : SearchSetting) (s : Search) (v : Nat) (via : Nat) (hcost : 0 ≤ cost)
    (htop : cost ≤ Cost.top) : Descends s (s.relax c v cost via).1 := by
  rcases relax_cases c s v cost via with ⟨heq, -⟩ | ⟨k, heq, hlt, hstatus⟩ | ⟨hstatus, heq⟩
  · rw [heq]
    exact .refl s
  · rw [heq, enqueue_eq]
    exact .set ⟨rank_cheaper_le hcost hlt (hstatus.imp_right And.left), nofun⟩ _ _
  · rw [heq]
    rcases open?_cases c s v cost (some via) with
      ⟨k, h, heq, -⟩ | ⟨k, y, heq, -⟩ | ⟨k, fault, -, -, heq, -⟩
    · rw [heq, enqueue_eq]
      exact .set ⟨rank_waiting_le htop hstatus, nofun⟩ _ _
    · rw [heq]
      exact .set (n := { s.node v with status := .deadEnd }) ⟨Nat.zero_le _, nofun⟩ _ _
    · rw [heq]
      exact .of_node fun _ => rfl

theorem kept_descends (c : SearchSetting) (s : Search) : Kept c 0 (Descends s) where
  same hnode _ h := h.trans (.of_node hnode)
  mark {s'} v h := h.trans (.set (n := { s'.node v with expanded := true }) ⟨Nat.le_refl _, fun h => ⟨h, rfl⟩⟩ _ _)
  relax via _ hcost htop h := h.trans (descends_relax c _ _ via hcost htop)

theorem descends_expand (h : Recorded c s) (v : Nat) (hcost : 0 ≤ cost) (htop : cost ≤ Cost.top) :
    Descends s (s.expand c v cost).1 :=
  (kept_descends c s).expand hcost htop h v (.refl s)

/-- A node that is taken falls, and the others stay as they are. -/
theorem Taken.rank_take {o : OpenList} (h : Taken s v o) (f : Statistics → Statistics) :
    (((s.take v o).count f).node v).rank < (s.node v).rank ∧
      ∀ w, (((s.take v o).count f).node w).rank ≤ (s.node w).rank := by
  have hlt : (((s.take v o).count f).node v).rank < (s.node v).rank := by
    rw [h.node_take]
    simp only [SearchNode.rank, h.waiting]
    omega
  refine ⟨hlt, fun w => ?_⟩
  by_cases hw : w = v
  · subst hw
    exact Nat.le_of_lt hlt
  · rw [h.node_take_ne hw]

/-- A step that takes a node lets this node fall and none rise. -/
theorem Underway.rank_step (h : Underway c s [] none) (hfull : (s.step c).2 ≠ .full)
    (hnone : (s.step c).2 ≠ .exhausted) : (∀ w, ((s.step c).1.node w).rank ≤ (s.node w).rank) ∧
      ∃ v < s.nodes.size, ((s.step c).1.node v).rank < (s.node v).rank := by
  rcases h.step_cases with ⟨-, heq⟩ | ⟨o, -, -, heq⟩ | ⟨v, o, hv, ⟨-, heq⟩ | ⟨-, heq⟩⟩
  · exact absurd (by rw [heq]) hfull
  · exact absurd (by rw [heq]) hnone
  · have hlt := lt_nodes_of_status (v := v) (s := s) (by simp [hv.waiting])
    obtain ⟨hself, hall⟩ := hv.rank_take id
    rw [heq]
    exact ⟨hall, v, hlt, hself⟩
  · have hlt := lt_nodes_of_status (v := v) (s := s) (by simp [hv.waiting])
    obtain ⟨hself, hall⟩ := hv.rank_take fun k => { k with expanded := k.expanded + 1 }
    have hmore := descends_expand (c := c)
      ((hv.sameRecord fun k => { k with expanded := k.expanded + 1 }).recorded h.recorded) v
      (h.cost_nonneg (.inl hv.waiting)) (h.cost_le_top (.inl hv.waiting))
    rw [heq]
    exact ⟨fun w => Nat.le_trans (hmore w).rank_le (hall w), v, hlt,
      Nat.lt_of_le_of_lt (hmore v).rank_le hself⟩

/-- Different nodes hold different states, and the task has only so many. -/
theorem Recorded.size_le (h : Recorded c s) (hc : c.Grouped) :
    s.nodes.size ≤ c.task.stateLists.length + 1 := by
  have hitem : ∀ i ∈ List.range s.table.size, ∃ y, s.table.item? i = some y := fun i hi =>
    Numbering.exists_item? (List.mem_range.mp hi)
  have hnodup : ((List.range s.table.size).map fun i => (s.table.item? i).map Array.toList).Nodup := by
    refine List.nodup_range.map_on fun i hi j hj heq => ?_
    obtain ⟨y, hy⟩ := hitem i hi
    obtain ⟨z, hz⟩ := hitem j hj
    rw [hy, hz] at heq
    obtain rfl := Array.toList_inj.mp (Option.some.inj heq)
    exact Numbering.item?_injective hy hz
  have hsubset : ((List.range s.table.size).map fun i => (s.table.item? i).map Array.toList) ⊆
      c.task.stateLists.map some := by
    intro list hlist
    obtain ⟨i, hi, rfl⟩ := List.mem_map.mp hlist
    obtain ⟨y, hy⟩ := hitem i hi
    rw [hy]
    exact List.mem_map_of_mem
      (h.isState hc (stateOf?_eq_some_iff.mpr ⟨i, rfl, hy⟩)).mem_stateLists
  have hle := (hnodup.subperm hsubset).length_le
  rw [List.length_map, List.length_map, List.length_range] at hle
  rw [h.size_eq]
  omega

/-- The sum of the ranks of all nodes that there may ever be. -/
def work (c : SearchSetting) (s : Search) : Nat :=
  ((List.range (c.task.stateLists.length + 1)).map fun v => (s.node v).rank).sum

/-- Every step that takes a node leaves less to do. -/
theorem Underway.work_step_lt (h : Underway c s [] none) (hc : c.Grouped)
    (hfull : (s.step c).2 ≠ .full) (hnone : (s.step c).2 ≠ .exhausted) :
    work c (s.step c).1 < work c s := by
  obtain ⟨hfall, v, hv, hlt⟩ := h.rank_step hfull hnone
  have hsize := h.recorded.size_le hc
  exact List.sum_lt_sum _ _ (fun w _ => hfall w)
    ⟨v, List.mem_range.mpr (Nat.lt_of_lt_of_le hv hsize), hlt⟩

end Search

end RankedPlans
