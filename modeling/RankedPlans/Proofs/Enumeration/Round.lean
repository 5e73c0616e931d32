import RankedPlans.Enumeration.Basic
import RankedPlans.Proofs.Enumeration.Termination
import RankedPlans.Proofs.Path.Enumeration
import RankedPlans.Proofs.Plan.Selection
import RankedPlans.Proofs.Search.Representatives

/-! A round takes the paths of a snapshot in turn. No path is taken before a cheaper one, and none that a
waiting node might undercut, so the plans selected are always the cheapest ones. -/

namespace RankedPlans

open Search (root sink)

/-- The cheapest plans of a task by their keys: of each key at most one, in the order of costs, and every
plan that costs less than one of them has the key of one of them. So of the costs of all keys, in
ascending order, theirs are the first ones. -/
structure Leading (t : Task) (key : Plan → List Nat) (plans : List CostedPlan) : Prop where
  valid : ∀ p ∈ plans, t.planCost? p.plan = some p.cost
  nodup : (plans.map (key ·.plan)).Nodup
  sorted : plans.Pairwise fun p q => p.cost ≤ q.cost
  cheaper : ∀ p ∈ plans, ∀ plan cost, t.planCost? plan = some cost → cost < p.cost →
    key plan ∈ plans.map (key ·.plan)

/-- A recorded graph whose walks decode to plans. -/
structure Readable (c : EnumerationSetting) (s : Search) : Prop where
  tree : s.graph.IsShortestPathTree s.pathTree
  priced : s.graph.Priced root
  decoded : ∀ es, s.graph.Walk root es sink →
    c.selection.task.planCost? (s.decode c.search es).plan = some (s.graph.cost es) ∧
    (s.decode c.search es).cost = min Cost.top (s.graph.cost es)

/-- Below the estimate no plan is missing. -/
structure Snapshot (c : EnumerationSetting) (s : Search) (frontier : Option Int) : Prop
    extends Readable c s where
  certified : ∀ plan cost, c.selection.task.planCost? plan = some cost →
    (∀ f, frontier = some f → cost < f) →
    ∃ es, s.graph.Walk root es sink ∧ (s.decode c.search es).plan = plan ∧ s.graph.cost es = cost

/-- The plans that a round has selected from the paths listed so far. -/
structure Collected (c : EnumerationSetting) (s : Search) (bound frontier : Option Int)
    (paths : PathEnumeration) (selection : Selection) (cs : List Candidate)
    (plans : List CostedPlan) : Prop where
  lists : PathEnumeration.Lists s.graph s.pathTree paths cs
  holds : selection.Holds c.selection plans
  offered : ∀ cand ∈ cs, c.selection.keyOf (s.decode c.search (paths.edges cand)).plan ∈
    plans.map (c.selection.keyOf ·.plan)
  listed : ∀ p ∈ plans, ∃ cand ∈ cs, cand.cost = p.cost ∧
    (c.selection.Plain → (s.decode c.search (paths.edges cand)).plan = p.plan)
  sorted : plans.Pairwise fun p q => p.cost ≤ q.cost
  within : ∀ cand ∈ cs, (∀ b, bound = some b → cand.cost ≤ b) ∧
    ∀ f, frontier = some f → cand.cost ≤ f

namespace Collected

variable {c : EnumerationSetting} {s : Search} {bound frontier : Option Int}
  {paths paths' : PathEnumeration} {selection : Selection} {cs : List Candidate}
  {plans : List CostedPlan} {rule : StopRule}

theorem start (c : EnumerationSetting) (s : Search) (bound frontier : Option Int) :
    Collected c s bound frontier (.start s.graph s.pathTree) {} [] [] :=
  ⟨.nil, Selection.empty_holds _, by simp, by simp, .nil, by simp⟩

/-- A listed path decodes to a plan of its cost. -/
theorem exists_stated {cand : Candidate} (hlists : PathEnumeration.Lists s.graph s.pathTree paths cs)
    (hs : Readable c s) (hcand : cand ∈ cs) : ∃ plan,
      s.decode c.search (paths.edges cand) = CostedPlan.stated ⟨cand.cost, plan⟩ ∧
      c.selection.task.planCost? plan = some cand.cost := by
  obtain ⟨hwalk, htotal⟩ := (hlists.exact hs.tree hs.priced).walk cand hcand
  obtain ⟨hplan, hstated⟩ := hs.decoded _ hwalk
  rw [htotal] at hplan hstated
  exact ⟨_, by rw [CostedPlan.stated, ← hstated], hplan⟩

/-- The next path is decoded and offered. -/
theorem accept {cand : Candidate}
    (h : Collected c s rule.bound frontier paths selection cs plans) (hs : Readable c s)
    (hr : c.selection.Sound) (hlimit : rule.count = c.selection.limit)
    (haccept : rule.judge selection.size paths.nextCost? frontier = .accept)
    (hnext : paths.next? = some (cand, paths')) :
    ∃ more, Collected c s rule.bound frontier paths'
      (selection.offer c.selection (s.decode c.search (paths'.edges cand))).1 (cs ++ [cand])
      (plans ++ more) := by
  obtain ⟨hroom, cost, hcost, hbound, hfrontier⟩ := StopRule.judge_accept haccept
  have hlists := h.lists.concat hnext
  obtain rfl : cand.cost = cost := by
    rw [(h.lists.exact hs.tree hs.priced).nextCost, hnext] at hcost
    exact Option.some.inj hcost
  have hedges : paths'.edges = paths.edges := by
    rw [hlists.edges_eq hs.tree hs.priced, h.lists.edges_eq hs.tree hs.priced]
  have hlast : cand ∈ cs ++ [cand] := by simp
  obtain ⟨plan, hdecode, hplan⟩ := exists_stated hlists hs hlast
  have hfull : selection.isFull c.selection = false := by
    rw [Selection.isFull, ← hlimit]
    exact hroom
  obtain ⟨more, hholds, hmore, hkey⟩ := h.holds.offer (p := ⟨cand.cost, plan⟩) hr hplan hfull
  rw [hdecode]
  refine ⟨more, ?_⟩
  constructor
  case lists => exact hlists
  case holds => exact hholds
  case offered =>
    intro other hother
    rcases List.mem_append.mp hother with hother | hother
    · rw [hedges, List.map_append]
      exact List.mem_append_left _ (h.offered other hother)
    · rw [List.mem_singleton.mp hother, hdecode]
      exact hkey
  case listed =>
    intro q hq
    rw [hedges]
    rcases List.mem_append.mp hq with hq | hq
    · obtain ⟨other, hother, heq⟩ := h.listed q hq
      exact ⟨other, List.mem_append_left _ hother, heq⟩
    · obtain ⟨hcost, hsame⟩ := hmore q hq
      refine ⟨cand, hlast, hcost.symm, fun hplain => ?_⟩
      rw [← hedges, hdecode, hsame hplain]
      rfl
  case sorted =>
    have hle := (List.pairwise_append.mp (hlists.exact hs.tree hs.priced).sorted).2.2
    refine List.pairwise_append.mpr ⟨h.sorted, ?_, fun q hq q' hq' => ?_⟩
    · refine List.pairwise_of_forall_mem_list fun q hq q' hq' => ?_
      exact Int.le_of_eq ((hmore q hq).1.trans (hmore q' hq').1.symm)
    · obtain ⟨other, hother, heq, -⟩ := h.listed q hq
      rw [← heq, (hmore q' hq').1]
      exact hle other hother cand (List.mem_singleton.mpr rfl)
  case within =>
    intro other hother
    rcases List.mem_append.mp hother with hother | hother
    · exact h.within other hother
    · rw [List.mem_singleton.mp hother]
      exact ⟨hbound, hfrontier⟩

/-- A walk of a listed path has its key among those selected. -/
theorem key_mem {es : List Nat} (h : Collected c s bound frontier paths selection cs plans)
    (hes : es ∈ cs.map paths.edges) : c.selection.keyOf (s.decode c.search es).plan ∈
      plans.map (c.selection.keyOf ·.plan) := by
  obtain ⟨cand, hcand, rfl⟩ := List.mem_map.mp hes
  exact h.offered cand hcand

/-- The plans selected are the cheapest ones. -/
theorem leading (h : Collected c s bound frontier paths selection cs plans)
    (hs : Snapshot c s frontier) :
    Leading c.selection.task c.selection.keyOf plans := by
  refine ⟨h.holds.valid, h.holds.nodup, h.sorted, fun p hp plan cost hplan hlt => ?_⟩
  obtain ⟨cand, hcand, heq, -⟩ := h.listed p hp
  obtain ⟨es, hes, rfl, rfl⟩ := hs.certified plan cost hplan fun f hf =>
    Int.lt_of_lt_of_le (heq ▸ hlt) ((h.within cand hcand).2 f hf)
  exact h.key_mem (h.lists.mem_of_cost_lt hs.tree hs.priced hcand hes (heq ▸ hlt))

/-- When nothing is left, or nothing within the bound, no key within the bound is missing. -/
theorem complete {reason : Termination}
    (h : Collected c s rule.bound frontier paths selection cs plans) (hs : Snapshot c s frontier)
    (hclock : rule.expired = false)
    (hstop : rule.judge selection.size paths.nextCost? frontier = .stop reason)
    (hreason : reason = .qualityBoundReached ∨ reason = .exhausted) {plan : Plan} {cost : Int}
    (hplan : c.selection.task.planCost? plan = some cost)
    (hwithin : ∀ b, rule.bound = some b → cost ≤ b) :
    c.selection.keyOf plan ∈ plans.map (c.selection.keyOf ·.plan) := by
  have hexact := h.lists.exact hs.tree hs.priced
  rcases StopRule.judge_stop hclock hstop with ⟨rfl, -⟩ | ⟨-, hnext, hnone⟩ |
    ⟨-, b, hb, hbeyond, hfrontier⟩
  · simp at hreason
  · obtain ⟨es, hes, rfl, -⟩ := hs.certified plan cost hplan fun f hf => by
      rw [hnone] at hf
      cases hf
    rw [hexact.nextCost, Option.map_eq_none_iff] at hnext
    exact h.key_mem (hexact.all hnext es hes)
  · have hle := hwithin b hb
    obtain ⟨es, hes, rfl, rfl⟩ := hs.certified plan cost hplan fun f hf =>
      Int.lt_of_le_of_lt hle (hfrontier f hf)
    cases hnext : paths.next? with
    | none => exact h.key_mem (hexact.all hnext es hes)
    | some r =>
      have hcost : paths.nextCost? = some r.1.cost := by
        rw [hexact.nextCost, hnext]
        rfl
      exact h.key_mem (hexact.cheaper _ es hcost hes
        (Int.lt_of_le_of_lt hle (hbeyond _ hcost)))

end Collected

end RankedPlans
