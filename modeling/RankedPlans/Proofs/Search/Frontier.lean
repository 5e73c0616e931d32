import Mathlib.Order.Bounds.Basic
import RankedPlans.Proofs.Search.Descent
import RankedPlans.Proofs.Search.Image
import RankedPlans.Proofs.Search.OpenListCalls

/-! The waiting nodes and the open list. A node that waits has one entry at its cost. All other entries are of costs
that were undercut or taken since, and as no node gets dearer they never become current again. So the open list
gives what a queue of the waiting nodes would give. That its entries are in order holds even after a failure of the
heuristic. -/

namespace RankedPlans

/-- The node may have an entry at this cost: it was seen, and it is cheaper by now unless it waits. -/
structure SearchNode.Fits (n : SearchNode) (cost : Int) : Prop where
  seen : n.status ≠ .unseen
  cost_le : n.cost ≤ cost
  outdated : n.status ≠ .waiting → n.cost < cost

namespace Search

variable {c : SearchSetting} {s s' : Search} {v w : Nat} {cost : Int} {via : Option Nat} {o : OpenList}
  {gone : List ((Int × Nat) × OpenEntry)}

/-- No two entries are of one node and one cost, and every entry fits its node. -/
structure Listed (s : Search) : Prop where
  numbered : s.frontier.Numbered
  distinct : (s.frontier.entries.map (·.2)).Nodup
  fits : ∀ x ∈ s.frontier.entries, (s.node x.2.node).Fits x.2.cost

namespace Listed

theorem congr (h : Listed s) (hfrontier : s'.frontier = s.frontier)
    (hstatus : ∀ w, (s'.node w).status = (s.node w).status) (hcost : ∀ w, (s'.node w).cost = (s.node w).cost) :
    Listed s' where
  numbered := hfrontier ▸ h.numbered
  distinct := hfrontier ▸ h.distinct
  fits x hx := by
    obtain ⟨hseen, hle, houtdated⟩ := h.fits x (hfrontier ▸ hx)
    exact ⟨hstatus _ ▸ hseen, hcost _ ▸ hle, fun hwaiting => hcost _ ▸ houtdated (hstatus _ ▸ hwaiting)⟩

theorem removes (h : Listed s) (hremoves : OpenList.Removes s.frontier gone s'.frontier)
    (hfits : ∀ x ∈ s'.frontier.entries, (s.node x.2.node).Fits x.2.cost → (s'.node x.2.node).Fits x.2.cost) :
    Listed s' where
  numbered := hremoves.numbered h.numbered
  distinct := (hremoves.nodup h.distinct).1
  fits x hx := hfits x hx (h.fits x (hremoves.subset hx))

/-- A node waits at a cost below those of all of its entries. -/
theorem enqueue (h : Listed s) (hv : v < s.nodes.size) (n : SearchNode)
    (hlt : ∀ x ∈ s.frontier.entries, x.2.node = v → n.cost < x.2.cost) (k : Statistics) :
    Listed (({ s with statistics := k } : Search).enqueue v n) := by
  rw [enqueue_eq]
  have hentries := s.frontier.entries_push v (Cost.add n.cost n.estimate) n.cost
  refine ⟨h.numbered.push _ _ _, ?_, fun x hx => ?_⟩
  · show ((s.frontier.push _ _ _).entries.map _).Nodup
    rw [(hentries.map _).nodup_iff, List.map_cons, List.nodup_cons]
    refine ⟨fun hmem => ?_, h.distinct⟩
    -- an entry of the node at the new cost would be dearer than itself
    obtain ⟨x, hx, heq⟩ := List.mem_map.mp hmem
    have hdearer : n.cost < x.2.cost := hlt x hx (congrArg OpenEntry.node heq)
    rw [heq] at hdearer
    exact Int.lt_irrefl _ hdearer
  · rcases List.mem_cons.mp (hentries.mem_iff.mp hx) with rfl | hx
    · rw [node_set_self hv]
      exact ⟨nofun, Int.le_refl _, fun hno => absurd rfl hno⟩
    · by_cases hxv : x.2.node = v
      · rw [hxv, node_set_self hv]
        exact ⟨nofun, Int.le_of_lt (hlt x hx hxv), fun hno => absurd rfl hno⟩
      · rw [node_set_ne hxv]
        exact h.fits x hx

theorem open? (h : Listed s) (hv : v < s.nodes.size) (hunseen : (s.node v).status = .unseen) :
    Listed (s.open? c v cost via).1 := by
  have hnone : ∀ x ∈ s.frontier.entries, x.2.node ≠ v := fun x hx heq => (h.fits x hx).seen (heq ▸ hunseen)
  rcases open?_cases c s v cost via with ⟨k, e, heq, -⟩ | ⟨k, x, heq, -⟩ | ⟨k, fault, -, -, heq, -⟩
  · rw [heq]
    exact h.enqueue hv _ (fun x hx hxv => absurd hxv (hnone x hx)) k
  · rw [heq]
    refine ⟨h.numbered, h.distinct, fun x hx => ?_⟩
    rw [node_set_ne (hnone x hx)]
    exact h.fits x hx
  · rw [heq]
    exact h.congr rfl (fun _ => rfl) fun _ => rfl

theorem relax (h : Listed s) (hv : v < s.nodes.size) (via : Nat) : Listed (s.relax c v cost via).1 := by
  rcases relax_cases c s v cost via with ⟨heq, -⟩ | ⟨k, heq, hlt, -⟩ | ⟨hunseen, heq⟩
  · rw [heq]
    exact h
  · rw [heq]
    exact h.enqueue hv _ (fun x hx hxv => Int.lt_of_lt_of_le hlt (hxv ▸ (h.fits x hx).cost_le)) k
  · rw [heq]
    exact h.open? hv hunseen

end Listed

theorem node_markExpanded (s : Search) (v w : Nat) : ((s.markExpanded v).node w).status = (s.node w).status ∧
    ((s.markExpanded v).node w).cost = (s.node w).cost := by
  rw [markExpanded, show node ⟨s.table, s.nodes.setIfInBounds v _, s.edges, s.frontier, s.statistics⟩ w = _ from
    getD_setIfInBounds s.nodes v w _]
  split
  · rename_i hw
    rw [← hw.1]
    exact ⟨rfl, rfl⟩
  · exact ⟨rfl, rfl⟩

theorem kept_listed (c : SearchSetting) (least : Int) : Kept c least Listed where
  same hnode hfrontier h := h.congr hfrontier (fun w => by rw [hnode]) fun w => by rw [hnode]
  mark {s} v h := h.congr rfl (fun w => (s.node_markExpanded v w).1) fun w => (s.node_markExpanded v w).2
  relax via hv _ _ h := h.relax hv via

/-- The open list is in order, and no node costs more than costs can say. -/
structure Queued (s : Search) : Prop where
  valid : s.frontier.queue.Valid costThenNumber
  cost_le_top : ∀ w, (s.node w).cost ≤ Cost.top

namespace Queued

theorem setNode (h : Queued s) {n : SearchNode} (hn : n.cost ≤ Cost.top) {o : OpenList}
    (ho : o.queue.Valid costThenNumber) (k : Statistics) :
    Queued ⟨s.table, s.nodes.setIfInBounds v n, s.edges, o, k⟩ := by
  refine ⟨ho, fun w => ?_⟩
  rw [node, getD_setIfInBounds]
  split
  · exact hn
  · exact h.cost_le_top w

theorem enqueue (h : Queued s) {n : SearchNode} (hn : n.cost ≤ Cost.top) (k : Statistics) :
    Queued (({ s with statistics := k } : Search).enqueue v n) := by
  rw [enqueue_eq]
  refine h.setNode ?_ ?_ k
  · exact hn
  · exact h.valid.push costThenNumber_totalPreorder _ _

theorem open? (h : Queued s) (hcost : cost ≤ Cost.top) (v : Nat) (via : Option Nat) :
    Queued (s.open? c v cost via).1 := by
  rcases open?_cases c s v cost via with ⟨k, e, heq, -⟩ | ⟨k, x, heq, -⟩ | ⟨k, fault, -, -, heq, -⟩
  · rw [heq]
    refine h.enqueue ?_ k
    exact hcost
  · rw [heq]
    refine h.setNode ?_ h.valid k
    exact h.cost_le_top v
  · rw [heq]
    exact ⟨h.valid, h.cost_le_top⟩

theorem relax (h : Queued s) (hcost : cost ≤ Cost.top) (v via : Nat) : Queued (s.relax c v cost via).1 := by
  rcases relax_cases c s v cost via with ⟨heq, -⟩ | ⟨k, heq, -⟩ | ⟨-, heq⟩
  · rw [heq]
    exact h
  · rw [heq]
    refine h.enqueue ?_ k
    exact hcost
  · rw [heq]
    exact h.open? hcost v _

end Queued

theorem kept_queued (c : SearchSetting) (least : Int) : Kept c least Queued where
  same hnode hfrontier h := ⟨hfrontier ▸ h.valid, fun w => hnode w ▸ h.cost_le_top w⟩
  mark {s} v h := by
    refine h.setNode ?_ h.valid s.statistics
    exact h.cost_le_top v
  relax via _ _ htop h := h.relax htop _ via

namespace Queued

/-- The open list gives nothing or a node that waits. -/
theorem pop_cases (h : Queued s) :
    (∃ o, s.frontier.pop? s.isCurrent = (none, o) ∧ o.queue.Valid costThenNumber) ∨
    ∃ v f number o, s.frontier.pop? s.isCurrent = (some (v, f, number), o) ∧
      v < s.nodes.size ∧ o.queue.Valid costThenNumber := by
  rcases OpenList.pop?_spec h.valid with ⟨o, hpop, ho, -⟩ |
    ⟨v, f, number, cost, o, hpop, -, hcurrent, -, ho, -⟩
  · exact .inl ⟨o, hpop, ho.valid⟩
  · have hwaiting := (isCurrent_iff.mp hcurrent).1
    exact .inr ⟨v, f, number, o, hpop, lt_nodes_of_status (by simp [hwaiting]), ho⟩

theorem take (h : Queued s) {o : OpenList} (ho : o.queue.Valid costThenNumber) (v : Nat)
    (f : Statistics → Statistics) : Queued ((s.take v o).count f) := by
  refine h.setNode ?_ ho _
  exact h.cost_le_top v

theorem step (h : Queued s) (hs : Recorded c s) : Queued (s.step c).1 := by
  unfold Search.step
  split
  · exact h
  rcases h.pop_cases with ⟨o, hpop, ho⟩ | ⟨v, f, number, o, hpop, -, ho⟩
  · rw [hpop]
    exact ⟨ho, h.cost_le_top⟩
  · rw [hpop]
    simp only
    split
    · exact h.take ho v id
    · exact (kept_queued c (s.node v).cost).expand (Int.le_refl _) (h.cost_le_top v)
        ((sameRecord_take s v o _).recorded hs) v (h.take ho v _)

end Queued

theorem Reached.queued (h : Reached c s) : Queued s := by
  induction h with
  | @start s h =>
    have hseed : Queued (seed c) := ⟨PriorityQueue.valid_empty, fun w => by rw [seed_node]; decide⟩
    have hopen : Queued ((seed c).open? c root 0 none).1 := hseed.open? (by decide) root none
    rwa [start_eq_ok_iff.mp h] at hopen
  | step hs ih => exact ih.step hs.recorded
  | leastEstimate _ ih => exact ⟨(OpenList.least?_spec ih.valid).1.valid, ih.cost_le_top⟩

/-- A closed node stays closed while edges are tried at costs that are not below its own. -/
theorem kept_closed (c : SearchSetting) (v : Nat) (cost : Int) :
    Kept c cost fun s => (s.node v).status = .closed ∧ (s.node v).cost = cost where
  same hnode _ h := by rwa [hnode]
  mark {s} w h := by
    obtain ⟨hstatus, hcost⟩ := s.node_markExpanded w v
    exact ⟨hstatus.trans h.1, hcost.trans h.2⟩
  relax {s w price} via hw hle _ h := by
    obtain ⟨hclosed, rfl⟩ := h
    by_cases hwv : v = w
    · -- an edge back to the node makes it no cheaper
      subst hwv
      rcases relax_cases c s v price via with ⟨heq, -⟩ | ⟨k, -, hlt, -⟩ | ⟨hunseen, -⟩
      · rw [heq]
        exact ⟨hclosed, rfl⟩
      · exact absurd hle (Int.not_le.mpr hlt)
      · cases hclosed.symm.trans hunseen
    · rw [relax_node_ne hwv]
      exact ⟨hclosed, rfl⟩

/-- The sum of cost and estimate of a node. -/
def priority (s : Search) (v : Nat) : Int :=
  Cost.add (s.node v).cost (s.node v).estimate

/-- The entry of a node at its cost, under a number. -/
def entryOf (s : Search) (v number : Nat) : (Int × Nat) × OpenEntry :=
  ((s.priority v, number), ⟨v, (s.node v).cost⟩)

/-- No waiting node has a lower sum of cost and estimate, and of those with the same sum this one has the entry that
was inserted first. -/
structure First (s : Search) (v number : Nat) : Prop where
  waiting : (s.node v).status = .waiting
  listed : s.entryOf v number ∈ s.frontier.entries
  first : ∀ {w number' : Nat}, (s.node w).status = .waiting → s.entryOf w number' ∈ s.frontier.entries →
    s.priority v < s.priority w ∨ s.priority v = s.priority w ∧ number ≤ number'

variable {number : Nat}

theorem First.isLeast (h : First s v number) (hu : Underway c s [] none) :
    IsLeast {f | ∃ w, (s.node w).status = .waiting ∧ s.priority w = f} (s.priority v) := by
  refine ⟨⟨v, h.waiting, rfl⟩, ?_⟩
  rintro _ ⟨w, hw, rfl⟩
  obtain ⟨number', hmem⟩ := hu.waits hw
  rcases h.first hw hmem with hlt | ⟨heq, -⟩
  · exact Int.le_of_lt hlt
  · exact Int.le_of_eq heq

/-- The first current entry is that of the first waiting node. -/
theorem first_of_isFront {x : (Int × Nat) × OpenEntry} (hu : Underway c s [] none)
    (hx : OpenList.IsFront s.isCurrent x s.frontier.entries) :
    x = s.entryOf x.2.node x.1.2 ∧ First s x.2.node x.1.2 := by
  obtain ⟨hwaiting, hcost⟩ := isCurrent_iff.mp hx.isCurrent
  have hkey : x.1.1 = s.priority x.2.node := by
    rw [(hu.queued x hx.mem).1, priority, hcost]
  have hentry : x = s.entryOf x.2.node x.1.2 := by
    obtain ⟨⟨f, number⟩, v, cost⟩ := x
    simp only at hkey hcost
    rw [entryOf, hcost, ← hkey]
  refine ⟨hentry, hwaiting, hentry ▸ hx.mem, fun {w number'} hw hmem => ?_⟩
  rw [← hkey]
  exact costThenNumber_iff.mp (hx.first _ hmem (isCurrent_iff.mpr ⟨hw, rfl⟩))

namespace Listed

theorem exists_entry (h : Listed s) (hu : Underway c s [] none) (hv : (s.node v).status = .waiting) :
    ∃ number, s.frontier.entries.filter (fun x => x.2 = ⟨v, (s.node v).cost⟩) = [s.entryOf v number] := by
  obtain ⟨number, hmem⟩ := hu.waits hv
  refine ⟨number, List.perm_singleton.mp ((List.perm_ext_iff_of_nodup ?_ (List.nodup_singleton _)).mpr
    fun x => ?_)⟩
  · exact h.distinct.of_map.filter _
  · rw [List.mem_filter, List.mem_singleton, decide_eq_true_eq]
    constructor
    · rintro ⟨hx, heq⟩
      exact List.inj_on_of_nodup_map h.distinct hx hmem heq
    · rintro rfl
      exact ⟨hmem, rfl⟩

/-- What is taken out of the open list is the first waiting node. -/
theorem pop_cases (h : Listed s) (hu : Underway c s [] none) :
    (∃ gone o, OpenList.Removes s.frontier gone o ∧ s.frontier.pop? s.isCurrent = (none, o) ∧
      ∀ v, (s.node v).status ≠ .waiting) ∨
    ∃ gone v number o, OpenList.Removes s.frontier gone o ∧ s.entryOf v number ∈ gone ∧
      s.frontier.pop? s.isCurrent = (some (v, s.priority v, number), o) ∧ First s v number := by
  obtain ⟨gone, o, hremoves, ⟨hpop, hstale, -⟩ | ⟨x, hx, hpop, hfront, -⟩⟩ := h.numbered.pop?_cases s.isCurrent
  · exact .inl ⟨gone, o, hremoves, hpop, hu.not_waiting hstale⟩
  · obtain ⟨hentry, hfirst⟩ := first_of_isFront hu hfront
    refine .inr ⟨gone, x.2.node, x.1.2, o, hremoves, hentry ▸ hx, ?_, hfirst⟩
    rw [hpop, show x.1.1 = s.priority x.2.node from congrArg (·.1.1) hentry]

/-- A node is taken with its entry; its other entries are of higher costs. -/
theorem take (h : Listed s) (hv : (s.node v).status = .waiting)
    (hremoves : OpenList.Removes s.frontier gone o) (hgone : s.entryOf v number ∈ gone) (f : Statistics → Statistics) :
    Listed ((s.take v o).count f) := by
  have hlt : v < s.nodes.size := lt_nodes_of_status (by simp [hv])
  refine h.removes hremoves fun x hx hfits => ?_
  by_cases hxv : x.2.node = v
  · -- its entry at the cost it is taken at is gone, so those that are left cost more
    subst hxv
    have hne : x.2.cost ≠ (s.node x.2.node).cost := fun heq => by
      refine (hremoves.nodup h.distinct).2 _ hgone x hx ?_
      rw [entryOf, ← heq]
    have hnode : ((s.take x.2.node o).count f).node x.2.node = { s.node x.2.node with status := .closed } :=
      node_set_self hlt _ o _
    rw [hnode]
    exact ⟨nofun, hfits.cost_le, fun _ => Int.lt_iff_le_and_ne.mpr ⟨hfits.cost_le, hne.symm⟩⟩
  · have hnode : ((s.take v o).count f).node x.2.node = s.node x.2.node := node_set_ne hxv _ o _
    rw [hnode]
    exact hfits

end Listed

theorem step_of_pop {f : Int} (hlimit : ¬c.stateLimit.any (· ≤ s.table.size) = true)
    (hpop : s.frontier.pop? s.isCurrent = (some (v, f, number), o)) :
    s.step c = if v = sink then (s.take v o, .solved (s.node v).cost)
      else ((s.take v o).count fun k => { k with expanded := k.expanded + 1 }).expand c v (s.node v).cost := by
  unfold Search.step
  rw [if_neg hlimit, hpop]
  rfl

/-- What a step can do: it refuses to go on, finds no waiting node, or takes the first one. -/
theorem Listed.step_cases (h : Listed s) (hu : Underway c s [] none) :
    s.step c = (s, .full) ∨
    (∃ gone o, OpenList.Removes s.frontier gone o ∧ s.step c = ({ s with frontier := o }, .exhausted) ∧
      ∀ v, (s.node v).status ≠ .waiting) ∨
    ∃ v number o f, First s v number ∧ Taken s v o ∧ Listed ((s.take v o).count f) ∧
      ((s.step c).1 = (s.take v o).count f ∨
        (s.step c).1 = (((s.take v o).count f).expand c v (s.node v).cost).1) := by
  by_cases hlimit : c.stateLimit.any (· ≤ s.table.size) = true
  · exact .inl (if_pos hlimit)
  rcases h.pop_cases hu with ⟨gone, o, hremoves, hpop, hnone⟩ | ⟨gone, v, number, o, hremoves, hgone, hpop, hfirst⟩
  · refine .inr (.inl ⟨gone, o, hremoves, ?_, hnone⟩)
    unfold Search.step
    rw [if_neg hlimit, hpop]
  · have htaken : Taken s v o := by
      rcases hu.pop_cases with ⟨o', hpop', -⟩ | ⟨v', number', o', htaken, hpop'⟩
      · cases hpop.symm.trans hpop'
      · obtain ⟨hsome, rfl⟩ := Prod.mk.inj (hpop.symm.trans hpop')
        obtain ⟨rfl, -⟩ := Prod.mk.inj (Option.some.inj hsome)
        exact htaken
    rw [step_of_pop hlimit hpop]
    by_cases hsink : v = sink
    · exact .inr (.inr ⟨v, number, o, id, hfirst, htaken, h.take hfirst.waiting hremoves hgone id,
        .inl (by rw [if_pos hsink]; rfl)⟩)
    · exact .inr (.inr ⟨v, number, o, fun k => { k with expanded := k.expanded + 1 }, hfirst, htaken,
        h.take hfirst.waiting hremoves hgone _, .inr (by rw [if_neg hsink])⟩)

theorem Listed.step (h : Listed s) (hu : Underway c s [] none) : Listed (s.step c).1 := by
  rcases h.step_cases hu with heq | ⟨gone, o, hremoves, heq, -⟩ | ⟨v, number, o, f, -, hv, htake, heq | heq⟩
  · rwa [heq]
  · rw [heq]
    exact h.removes hremoves fun x _ hfits => hfits
  · rwa [heq]
  · rw [heq]
    have hmet : s.Met v := .inl hv.waiting
    exact (kept_listed c (s.node v).cost).expand (Int.le_refl _) (hu.cost_le_top hmet)
      ((hv.sameRecord f).recorded hu.recorded) v htake

/-- The first waiting node is closed by a step that takes it, and no other node is. -/
theorem Listed.step_closes (h : Listed s) (hu : Underway c s [] none) :
    s.step c = (s, .full) ∨ ((s.step c).2 = .exhausted ∧ ∀ v, (s.node v).status ≠ .waiting) ∨
    ∃ v number, First s v number ∧ ((s.step c).1.node v).status = .closed ∧
      ∀ w, ((s.step c).1.node w).status = .closed → w = v ∨ (s.node w).status = .closed := by
  rcases h.step_cases hu with heq | ⟨gone, o, -, heq, hnone⟩ | ⟨v, number, o, f, hfirst, hv, -, hstep⟩
  · exact .inl heq
  · exact .inr (.inl ⟨congrArg Prod.snd heq, hnone⟩)
  have hself := hv.node_take f
  have hother : ∀ w, (((s.take v o).count f).node w).status = .closed → w = v ∨ (s.node w).status = .closed := by
    refine fun w hw => or_iff_not_imp_left.mpr fun hwv => ?_
    rwa [hv.node_take_ne hwv] at hw
  refine .inr (.inr ⟨v, number, hfirst, ?_⟩)
  rcases hstep with heq | heq
  · rw [heq]
    exact ⟨by rw [hself], hother⟩
  · have hmet : s.Met v := .inl hv.waiting
    have hrecorded := (hv.sameRecord f).recorded hu.recorded
    have hclosed := (kept_closed c v (s.node v).cost).expand (Int.le_refl _) (hu.cost_le_top hmet) hrecorded v
      (by rw [hself]; exact ⟨rfl, rfl⟩)
    have hdescends := descends_expand hrecorded v (hu.cost_nonneg hmet) (hu.cost_le_top hmet)
    rw [heq]
    exact ⟨hclosed.1, fun w hw => hother w ((hdescends w).closed hw).1⟩

theorem seed_listed (c : SearchSetting) : Listed (seed c) :=
  ⟨OpenList.numbered_empty, List.nodup_nil, nofun⟩

theorem Faultless.listed (h : Faultless c s) : Listed s := by
  induction h with
  | @start s h =>
    have hlisted : Listed ((seed c).open? c root 0 none).1 := (seed_listed c).open? (show 0 < 2 by omega) rfl
    rwa [start_eq_ok_iff.mp h] at hlisted
  | step h _ ih => exact ih.step h.underway.1
  | @leastEstimate s _ ih =>
    obtain ⟨gone, hremoves, -⟩ := ih.numbered.least?_cases s.isCurrent
    have hremoves' : OpenList.Removes s.frontier gone s.leastEstimate?.2.frontier := hremoves
    exact ih.removes hremoves' fun x _ hfits => hfits

/-- The least sum of cost and estimate is asked of the entries and answered for the waiting nodes. -/
theorem Listed.leastEstimate?_cases (h : Listed s) (hu : Underway c s [] none) :
    (s.leastEstimate?.1 = none ∧ ∀ v, (s.node v).status ≠ .waiting) ∨
    ∃ v number, s.leastEstimate?.1 = some (s.priority v) ∧ First s v number := by
  obtain ⟨-, -, hleast, -⟩ := h.numbered.least?_cases s.isCurrent
  rw [show s.leastEstimate?.1 = (s.frontier.least? s.isCurrent).1 from rfl, hleast]
  rcases h.pop_cases hu with ⟨gone, o, -, hpop, hnone⟩ | ⟨gone, v, number, o, -, -, hpop, hfirst⟩
  · exact .inl ⟨by rw [hpop]; rfl, hnone⟩
  · exact .inr ⟨v, number, by rw [hpop]; rfl, hfirst⟩

/-- In a search that did not fail the open list is a queue of the waiting nodes: each has one entry at its cost; what
is taken out is the first waiting node; the least sum of cost and estimate is that of a waiting node, if there is
one; and a step closes the first waiting node and no other. -/
theorem Faultless.frontier_exact (h : Faultless c s) :
    (∀ v, (s.node v).status = .waiting → ∃ number,
      s.frontier.entries.filter (fun x => x.2 = ⟨v, (s.node v).cost⟩) = [s.entryOf v number]) ∧
    (∀ v f number, (s.frontier.pop? s.isCurrent).1 = some (v, f, number) →
      f = s.priority v ∧ First s v number) ∧
    (s.leastEstimate?.1 = none ↔ ∀ v, (s.node v).status ≠ .waiting) ∧
    (∀ f, s.leastEstimate?.1 = some f ↔
      IsLeast {f | ∃ v, (s.node v).status = .waiting ∧ s.priority v = f} f) ∧
    (s.step c = (s, .full) ∨ ((s.step c).2 = .exhausted ∧ ∀ v, (s.node v).status ≠ .waiting) ∨
      ∃ v number, First s v number ∧ ((s.step c).1.node v).status = .closed ∧
        ∀ w, ((s.step c).1.node w).status = .closed → w = v ∨ (s.node w).status = .closed) := by
  have hu := h.underway.1
  have hlisted := h.listed
  refine ⟨fun v => hlisted.exists_entry hu, fun v f number hv => ?_, ?_, fun f => ?_, hlisted.step_closes hu⟩
  · rcases hlisted.pop_cases hu with ⟨gone, o, -, hpop, -⟩ | ⟨gone, v', number', o, -, -, hpop, hfirst⟩
    · rw [hpop] at hv
      cases hv
    · rw [hpop] at hv
      cases hv
      exact ⟨rfl, hfirst⟩
  · rcases hlisted.leastEstimate?_cases hu with ⟨hnone, hall⟩ | ⟨v, number, hsome, hfirst⟩
    · exact iff_of_true hnone hall
    · exact iff_of_false (by simp [hsome]) fun hall => hall v hfirst.waiting
  · rcases hlisted.leastEstimate?_cases hu with ⟨hnone, hall⟩ | ⟨v, number, hsome, hfirst⟩
    · refine iff_of_false (by simp [hnone]) ?_
      rintro ⟨⟨v, hv, -⟩, -⟩
      exact hall v hv
    · rw [hsome, Option.some.injEq]
      constructor
      · rintro rfl
        exact hfirst.isLeast hu
      · exact fun hleast => (hfirst.isLeast hu).unique hleast

/-- The moves over the side road, found without estimates. -/
def plainRoadSetting : SearchSetting :=
  ⟨sideRoad, .blind, none, true, none⟩

/-- A search for these moves, after so many steps. -/
def plainRoadSearch : Nat → Search
  | 0 => ((seed plainRoadSetting).open? plainRoadSetting root 0 none).1
  | n + 1 => ((plainRoadSearch n).step plainRoadSetting).1

theorem plainRoadSearch_faultless : Faultless plainRoadSetting (plainRoadSearch 2) := by
  have hstart : start plainRoadSetting = .ok (plainRoadSearch 0) := start_eq_ok (by decide +kernel)
  have houtcome : ((plainRoadSearch 0).step plainRoadSetting).2 = .expanded true ∧
      ((plainRoadSearch 1).step plainRoadSetting).2 = .expanded true := by decide +kernel
  have hone : Faultless plainRoadSetting (plainRoadSearch 1) := .step (.start hstart) (by rw [houtcome.1]; nofun)
  exact hone.step (by rw [houtcome.2]; nofun)

/-- The end of the road was met at a cost of 5 and then of 2, and waits with the second entry only. -/
theorem Faultless.frontier_exact_plainRoad :
    ((5, 1), ⟨2, 5⟩) ∈ (plainRoadSearch 2).frontier.entries ∧
    (∃ number, (plainRoadSearch 2).frontier.entries.filter (fun x => x.2 = ⟨2, 2⟩) = [((2, number), ⟨2, 2⟩)]) ∧
    IsLeast {f | ∃ v, ((plainRoadSearch 2).node v).status = .waiting ∧ (plainRoadSearch 2).priority v = f} 2 := by
  have hnode : ((plainRoadSearch 2).node 2).status = .waiting ∧ ((plainRoadSearch 2).node 2).cost = 2 ∧
      (plainRoadSearch 2).priority 2 = 2 := by decide +kernel
  have hleast : (plainRoadSearch 2).leastEstimate?.1 = some 2 := by decide +kernel
  obtain ⟨hentry, -, -, hleast_iff, -⟩ := Faultless.frontier_exact plainRoadSearch_faultless
  obtain ⟨number, hend⟩ := hentry 2 hnode.1
  rw [entryOf, hnode.2.1, hnode.2.2] at hend
  exact ⟨by decide +kernel, ⟨number, hend⟩, (hleast_iff 2).mp hleast⟩

end Search

end RankedPlans
