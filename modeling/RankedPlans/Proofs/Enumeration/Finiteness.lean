import Mathlib.Data.Set.Card
import Mathlib.Data.Set.Finite.List
import RankedPlans.Proofs.Enumeration.Exactness
import RankedPlans.Proofs.Search.Exhaustion

/-! Every enumeration comes to an end. A round takes each walk of the recorded graph at most once, and there
are only so many walks that decode to plans of at most a certain length. If a number of plans is asked for, a
walk that brings no new key decodes to a plan no longer than one that is there; if every operator costs
something, the bound on the costs is one on the lengths. Between two rounds the search takes a node, so what
is left to do falls; once no node waits, the next round is the last one. -/

namespace RankedPlans

open Search (root sink)

namespace Graph

variable {g : Graph} {most : Nat}

/-- Lists of at most so many edges. -/
def edgeLists (g : Graph) (most : Nat) : Set (List Nat) :=
  { es | es.length ≤ most ∧ ∀ e ∈ es, e < g.edges.size }

theorem finite_edgeLists (g : Graph) (most : Nat) : (g.edgeLists most).Finite := by
  refine ((List.finite_length_le (Fin g.edges.size) most).image (List.map Fin.val)).subset ?_
  rintro es ⟨hlength, hlt⟩
  refine ⟨es.attach.map fun e => ⟨e.1, hlt e.1 e.2⟩, ?_, ?_⟩
  · rw [Set.mem_ofPred_eq, List.length_map, List.length_attach]
    exact hlength
  · rw [List.map_map]
    exact List.attach_map_subtype_val es

theorem length_le_ncard_edgeLists {ess : List (List Nat)} (hnodup : ess.Nodup)
    (hess : ∀ es ∈ ess, es ∈ g.edgeLists most) : ess.length ≤ (g.edgeLists most).ncard := by
  rw [← List.toFinset_card_of_nodup hnodup, ← Set.ncard_coe_finset]
  exact Set.ncard_le_ncard (fun es hes => hess es (List.mem_toFinset.mp hes)) (g.finite_edgeLists most)

end Graph

theorem Task.length_le_of_run? {t : Task} (hunit : ∀ op < t.operators.size, 1 ≤ (t.operator op).cost)
    {x final : State} {plan : Plan} {cost : Int} (hrun : t.run? x plan = some (final, cost)) :
    (plan.length : Int) ≤ cost := by
  induction plan generalizing x cost with
  | nil =>
    obtain ⟨-, rfl⟩ := Prod.mk.inj (Option.some.inj hrun)
    exact Int.le_refl 0
  | cons op plan ih =>
    obtain ⟨hop, left, hleft, rfl⟩ := run?_cons_eq_some_iff.mp hrun
    have hone := hunit op (mem_applicable_iff.mp hop).1
    have hrest := ih hleft
    rw [List.length_cons]
    omega

namespace Search

variable {c : SearchSetting} {s : Search} {es : List Nat}

/-- Only the last edge of a walk to the sink is without an operator. -/
theorem Recorded.length_le_operators (h : Recorded c s) {v : Nat} (hes : s.graph.Walk v es sink) :
    es.length ≤ (s.operators es).length + 1 := by
  induction es generalizing v with
  | nil => exact Nat.zero_le _
  | cons e es ih =>
    obtain ⟨edge, he, -, hrest⟩ := Graph.walk_cons_iff.mp hes
    obtain ⟨x, -, hmeant⟩ := h.meant he
    cases hlabel : edge.label with
    | operator op =>
      rw [operators_operator he hlabel, List.length_cons, List.length_cons]
      exact Nat.succ_le_succ (ih hrest)
    | goal =>
      rw [hlabel] at hmeant
      rw [hmeant.2.2] at hrest
      obtain rfl := h.walk_sink hrest
      exact Nat.le_add_left ..

theorem length_decodeFrom (c : SearchSetting) (s : Search) (g : SymmetryGroup) (es trace : List Nat) :
    (decodeFrom c s g trace es).length = (s.operators es).length := by
  induction es generalizing trace with
  | nil => rfl
  | cons e es ih =>
    rw [decodeFrom, operators, List.filterMap_cons]
    rcases s.edges[e]? with - | ⟨source, target, - | -, cost⟩
    · exact ih trace
    · exact congrArg Nat.succ (ih _)
    · exact ih trace

theorem Recorded.length_le_decode (h : Recorded c s) (hes : s.graph.Walk root es sink) :
    es.length ≤ (s.decode c es).plan.length + 1 := by
  have hlength := h.length_le_operators hes
  unfold decode
  cases c.group with
  | none => exact hlength
  | some g =>
    rw [length_decodeFrom]
    exact hlength

end Search

/-- Either so many plans are asked for, or costs are bounded and every operator costs something. -/
def StopRule.Finite (r : StopRule) (t : Task) : Prop :=
  r.count.isSome ∨ r.bound.isSome ∧ ∀ op < t.operators.size, 1 ≤ (t.operator op).cost

namespace StopRule

/-- A path that brings no new key decodes to no more operators. -/
def span (r : StopRule) (plans : List CostedPlan) : Nat :=
  match r.count with
  | some _ => plans.foldr (fun p most => max p.plan.length most) 0
  | none => (r.bound.getD 0).toNat

/-- How many more plans are asked for. -/
def room (r : StopRule) (plans : List CostedPlan) : Nat :=
  match r.count with
  | some n => n - plans.length
  | none => 0

/-- How many more plans are asked for, and how many more paths may come before the next of them. -/
noncomputable def left (r : StopRule) (g : Graph) (cs : List Candidate) (plans : List CostedPlan) :
    Nat × Nat :=
  (r.room plans, (g.edgeLists (r.span plans + 1)).ncard - cs.length)

theorem length_le_span {r : StopRule} {n : Nat} (hcount : r.count = some n) {plans : List CostedPlan}
    {p : CostedPlan} (hp : p ∈ plans) : p.plan.length ≤ r.span plans := by
  simp only [span, hcount]
  induction plans with
  | nil => cases hp
  | cons q plans ih =>
    rw [List.foldr_cons]
    rcases List.mem_cons.mp hp with rfl | hp
    · exact Nat.le_max_left ..
    · exact Nat.le_trans (ih hp) (Nat.le_max_right ..)

end StopRule

namespace Collected

variable {c : EnumerationSetting} {s : Search} {frontier : Option Int} {rule : StopRule}
  {paths paths' : PathEnumeration} {selection selection' : Selection} {cs : List Candidate}
  {plans more : List CostedPlan}

theorem length_le_span (h : Collected c s rule.bound frontier paths selection cs plans)
    (hs : Readable c s) (hr : c.selection.Sound) (hfinite : rule.Finite c.selection.task)
    {cand : Candidate} (hcand : cand ∈ cs) :
    (s.decode c.search (paths.edges cand)).plan.length ≤ rule.span plans := by
  obtain ⟨plan, hdecode, hplan⟩ := exists_stated h.lists hs hcand
  have hkey := h.offered cand hcand
  rw [hdecode] at hkey ⊢
  cases hcount : rule.count with
  | some n =>
    obtain ⟨p, hp, heq⟩ := List.mem_map.mp hkey
    have hlength := hr.length_eq_of_keyOf_eq hplan (h.holds.valid p hp) heq.symm
    exact Nat.le_trans (Nat.le_of_eq hlength) (StopRule.length_le_span hcount hp)
  | none =>
    obtain ⟨hbound, hunit⟩ := hfinite.resolve_left (by simp [hcount])
    obtain ⟨bound, hbound⟩ := Option.isSome_iff_exists.mp hbound
    obtain ⟨final, hrun, -⟩ := Task.planCost?_eq_some_iff.mp hplan
    have hlength := Task.length_le_of_run? hunit hrun
    have hwithin := (h.within cand hcand).1 bound hbound
    simp only [StopRule.span, hcount, hbound, Option.getD_some]
    have hle : (plan.length : Int) ≤ bound := Int.le_trans hlength hwithin
    change plan.length ≤ bound.toNat
    omega

/-- There are no more paths than lists of edges short enough. -/
theorem length_le_ncard (h : Collected c s rule.bound frontier paths selection cs plans)
    (hs : Readable c s) (hrecorded : Search.Recorded c.search s) (hr : c.selection.Sound)
    (hfinite : rule.Finite c.selection.task) :
    cs.length ≤ (s.graph.edgeLists (rule.span plans + 1)).ncard := by
  have hexact := h.lists.exact hs.tree hs.priced
  rw [← List.length_map (f := paths.edges)]
  refine Graph.length_le_ncard_edgeLists hexact.nodup fun es hes => ?_
  obtain ⟨cand, hcand, rfl⟩ := List.mem_map.mp hes
  obtain ⟨hwalk, -⟩ := hexact.walk cand hcand
  have hlength := hrecorded.length_le_decode hwalk
  have hspan := h.length_le_span hs hr hfinite hcand
  exact ⟨by omega, hwalk.lt_edges⟩

/-- A path that is taken brings a new plan, or leaves fewer paths to come before the next one. -/
theorem left_lt {cand : Candidate}
    (h : Collected c s rule.bound frontier paths selection (cs ++ [cand]) (plans ++ more))
    (hs : Readable c s) (hrecorded : Search.Recorded c.search s) (hr : c.selection.Sound)
    (hlimit : rule.count = c.selection.limit) (hfinite : rule.Finite c.selection.task) :
    Prod.Lex (· < ·) (· < ·) (rule.left s.graph (cs ++ [cand]) (plans ++ more))
      (rule.left s.graph cs plans) := by
  have hcount := h.length_le_ncard hs hrecorded hr hfinite
  rw [List.length_append, List.length_singleton] at hcount
  have hsame : rule.span (plans ++ more) = rule.span plans → rule.room (plans ++ more) = rule.room plans →
      Prod.Lex (· < ·) (· < ·) (rule.left s.graph (cs ++ [cand]) (plans ++ more))
        (rule.left s.graph cs plans) := by
    intro hspan hroom
    rw [hspan] at hcount
    rw [StopRule.left, StopRule.left, hspan, hroom, List.length_append, List.length_singleton]
    exact Prod.Lex.right _ (by omega)
  cases hn : rule.count with
  | none => exact hsame (by simp only [StopRule.span, hn]) (by simp only [StopRule.room, hn])
  | some n =>
    cases more with
    | nil => exact hsame (by rw [List.append_nil]) (by rw [List.append_nil])
    | cons p more =>
      have hle := h.holds.limit n (hlimit ▸ hn)
      rw [List.length_append, List.length_cons] at hle
      refine Prod.Lex.left _ _ ?_
      simp only [StopRule.room, hn, List.length_append, List.length_cons]
      omega

end Collected

namespace Enumeration

/-- After some steps the enumeration has ended. -/
def Ends (c : EnumerationSetting) (e : Enumeration) : Prop :=
  ∃ steps outcome, e.run c steps = some outcome

/-- No round is under way. -/
def Searches (e : Enumeration) : Prop :=
  ∀ rule paths selection frontier, e.phase ≠ .collecting rule paths selection frontier

end Enumeration

/-- An end, or an enumeration that comes to one. -/
def Progress.Ends (c : EnumerationSetting) : Progress → Prop
  | .going e => e.Ends c
  | _ => True

namespace Enumeration

variable {c : EnumerationSetting} {e : Enumeration} {rule : StopRule} {frontier : Option Int}

theorem Ends.of_step (h : (e.step c).Ends c) : e.Ends c := by
  cases hstep : e.step c with
  | going e' =>
    rw [hstep] at h
    obtain ⟨steps, outcome, hrun⟩ := h
    exact ⟨steps + 1, outcome, by rw [run_succ, hstep]; exact hrun⟩
  | finished res => exact ⟨1, .ok res, by rw [run_succ, hstep]⟩
  | failed fault => exact ⟨1, .error fault, by rw [run_succ, hstep]⟩

/-- A round ends, and if the search goes on after it, some node waits. -/
theorem ends_of_collected {e : Enumeration} {paths : PathEnumeration} {selection : Selection}
    {cs : List Candidate} {plans : List CostedPlan} (hc : c.Regular)
    (hphase : e.phase = .collecting rule paths selection frontier)
    (hs : Readable c e.search) (hrecorded : Search.Recorded c.search e.search)
    (hlimit : rule.count = c.selection.limit) (hfinite : rule.Finite c.selection.task)
    (h : Collected c e.search rule.bound frontier paths selection cs plans)
    (hbatch : frontier ≠ none → ∀ e' : Enumeration, e'.search = e.search → e'.Searches → e'.Ends c) :
    e.Ends c := by
  refine .of_step ?_
  rw [Enumeration.step, hphase]
  simp only [Enumeration.collect]
  cases hverdict : rule.judge selection.size paths.nextCost? frontier with
  | stop reason => trivial
  | search threshold => exact hbatch (StopRule.judge_search hverdict) _ rfl nofun
  | accept =>
    simp only
    cases hnext : paths.next? with
    | none =>
      obtain ⟨-, cost, hcost, -⟩ := StopRule.judge_accept hverdict
      rw [(h.lists.exact hs.tree hs.priced).nextCost, hnext] at hcost
      cases hcost
    | some next =>
      obtain ⟨cand, paths'⟩ := next
      obtain ⟨more, hmore⟩ := h.accept hs hc.selection hlimit hverdict hnext
      have hless := hmore.left_lt hs hrecorded hc.selection hlimit hfinite
      exact ends_of_collected hc rfl hs hrecorded hlimit hfinite hmore hbatch
termination_by rule.left e.search.graph cs plans
decreasing_by exact hless

theorem startRound_ends (hc : c.Regular)
    (hfinite : ∀ least, (StopRule.ofRequest c.request least c.expired).Finite c.selection.task)
    (hs : Search.Faultless c.search e.search)
    (hbatch : e.search.leastEstimate?.1 ≠ none → ∀ e' : Enumeration,
      e'.search = e.search.leastEstimate?.2 → e'.Searches → e'.Ends c) : (e.startRound c).Ends c := by
  have hnext := hs.leastEstimate
  rw [startRound_eq]
  cases e.search.pathTree.optimalCost? with
  | none => trivial
  | some cost =>
    exact ends_of_collected hc rfl (hc.readable hnext) hnext.underway.1.recorded hc.limit.symm
      (hfinite _) (.start ..) hbatch

/-- Every search with less left to do comes to an end. -/
def EndsBelow (c : EnumerationSetting) (work : Nat) : Prop :=
  ∀ e : Enumeration, Search.Faultless c.search e.search → e.Searches →
    Search.work c.search e.search < work → e.Ends c

section Searching

variable {work : Nat} (hc : c.Regular)
  (hfinite : ∀ least, (StopRule.ofRequest c.request least c.expired).Finite c.selection.task)
include hc hfinite

theorem EndsBelow.startRound (h : EndsBelow c work) (hs : Search.Faultless c.search e.search)
    (hless : Search.work c.search e.search < work) : (e.startRound c).Ends c :=
  startRound_ends hc hfinite hs fun _ e' heq he' => h e' (heq ▸ hs.leastEstimate) he' (heq ▸ hless)

theorem EndsBelow.continueBatch (h : EndsBelow c work) (hs : Search.Faultless c.search e.search)
    (hless : Search.work c.search e.search < work) (rule : StopRule) (threshold : Option Int)
    (bounds : BatchBounds) (steps : Nat) :
    (e.continueBatch c rule threshold bounds steps).Ends c := by
  unfold Enumeration.continueBatch
  simp only
  split
  · exact h.startRound (e := { e with search := e.search.leastEstimate?.2 }) hc hfinite
      hs.leastEstimate hless
  · exact h _ hs.leastEstimate nofun hless

theorem EndsBelow.solve (h : EndsBelow c (Search.work c.search e.search))
    (hs : Search.Faultless c.search e.search) (hphase : e.Searches) : (e.solve c).Ends c := by
  have hstep := hs.step
  have hless := hs.underway.1.work_step_lt (c := c.search) hc.grouped
  unfold Enumeration.solve
  split
  · trivial
  · rcases hsearch : e.search.step c.search with ⟨search, outcome⟩
    rw [hsearch] at hstep hless
    cases outcome with
    | expanded goal => exact h _ (hstep nofun) hphase (hless nofun nofun)
    | solved cost =>
      exact h.startRound (e := { e with search }) hc hfinite (hstep nofun) (hless nofun nofun)
    | exhausted => trivial
    | full => trivial
    | failed fault => trivial

theorem EndsBelow.searchOn (h : EndsBelow c (Search.work c.search e.search))
    (hs : Search.Faultless c.search e.search) (rule : StopRule) (threshold : Option Int)
    (bounds : BatchBounds) (steps : Nat) : (e.searchOn c rule threshold bounds steps).Ends c := by
  have hstep := hs.step
  have hless := hs.underway.1.work_step_lt (c := c.search) hc.grouped
  have hnone := hs.underway.1.leastEstimate?_of_exhausted (c := c.search)
  unfold Enumeration.searchOn
  split
  · trivial
  · rcases hsearch : e.search.step c.search with ⟨search, outcome⟩
    rw [hsearch] at hstep hless hnone
    cases outcome with
    | expanded goal =>
      simp only
      split
      · exact h.startRound (e := { e with search }) hc hfinite (hstep nofun) (hless nofun nofun)
      · exact h.continueBatch (e := { e with search }) hc hfinite (hstep nofun) (hless nofun nofun) ..
    | solved cost =>
      exact h.continueBatch (e := { e with search }) hc hfinite (hstep nofun) (hless nofun nofun) ..
    | exhausted =>
      exact startRound_ends (e := { e with search }) hc hfinite (hstep nofun) (absurd (hnone rfl))
    | full => trivial
    | failed fault => trivial

/-- The search takes nodes, with rounds in between, until no node waits. -/
theorem ends_of_faultless (hs : Search.Faultless c.search e.search) (hphase : e.Searches) :
    e.Ends c := by
  -- The induction is on what is left to do, the sum of the ranks of all nodes.
  induction hwork : Search.work c.search e.search using Nat.strong_induction_on generalizing e with
  | _ work ih =>
    subst hwork
    have hbelow : EndsBelow c (Search.work c.search e.search) := fun e' hs' hphase' hless =>
      ih _ hless hs' hphase' rfl
    refine .of_step ?_
    unfold Enumeration.step
    cases hp : e.phase with
    | solving => exact hbelow.solve hc hfinite hs hphase
    | collecting rule paths selection frontier => exact absurd hp (hphase _ _ _ _)
    | searching rule threshold bounds steps => exact hbelow.searchOn hc hfinite hs ..

end Searching

theorem run_mono {steps more : Nat} {outcome : Except NegativeEstimate Result}
    (hrun : e.run c steps = some outcome) (hle : steps ≤ more) : e.run c more = some outcome := by
  induction steps generalizing e more with
  | zero => cases hrun
  | succ steps ih =>
    cases more with
    | zero => omega
    | succ more =>
      rw [run_succ] at hrun ⊢
      cases hstep : e.step c with
      | going e' =>
        rw [hstep] at hrun
        exact ih hrun (Nat.le_of_succ_le_succ hle)
      | finished res =>
        rw [hstep] at hrun
        exact hrun
      | failed fault =>
        rw [hstep] at hrun
        exact hrun

end Enumeration

variable {t : Task} {h : Heuristic} {r : Request} {p : Policy} {c : EnumerationSetting}

/-- A sound request gives a number of plans or bounds their costs. -/
theorem Request.isSome_of_check {preserved : Option Pattern} (hcheck : r.check = .ok preserved) :
    r.count.isSome ∨ ∀ least, (r.costBound? least).isSome := by
  by_cases hcount : r.count.isSome
  · exact .inl hcount
  · refine .inr fun least => ?_
    rw [costBound?, Option.isSome_map]
    by_contra hquality
    rw [check, if_pos (by simp_all)] at hcheck
    cases hcheck

/-- Without a clock every enumeration comes to an end, and more steps do not change it, if a number of plans is
asked for or every operator costs something, and sums of costs stay in range. The estimates need not be
admissible, and closed nodes need not be opened again. -/
theorem Task.enumerate?_terminates (hset : t.enumerationSetting h r p = .ok c)
    (hclock : r.milliseconds = none)
    (hfinite : r.count.isSome ∨ ∀ op < t.operators.size, 1 ≤ (t.operator op).cost)
    (hrange : ∀ s, Search.Faultless c.search s → s.graph.InRange root) :
    ∃ steps outcome, ∀ more, steps ≤ more → t.enumerate? h r p more = some outcome := by
  have hc := regular_of_enumerationSetting hset hclock hrange
  obtain ⟨pattern, hcheck⟩ := check_of_enumerationSetting hset
  simp only [Task.enumerate?, hset]
  cases hstart : Enumeration.start c with
  | error fault => exact ⟨0, .error (.heuristic fault), fun _ _ => rfl⟩
  | ok e =>
    obtain ⟨s, hs, rfl⟩ := Enumeration.start_eq_ok_iff.mp hstart
    obtain ⟨preserved, rfl⟩ := enumerationSetting_eq hset
    have hrounds : ∀ least, (StopRule.ofRequest r least
        (EnumerationSetting.ofRequest t h r preserved p).expired).Finite t := fun least =>
      (Request.isSome_of_check hcheck).elim .inl fun hbound =>
        hfinite.imp id fun hunit => ⟨hbound least, hunit⟩
    obtain ⟨steps, outcome, hrun⟩ := Enumeration.ends_of_faultless
      (e := { search := s, phase := .solving }) hc hrounds (.start hs) nofun
    exact ⟨steps, outcome.mapError EnumerationFault.heuristic, fun more hle =>
      congrArg (Option.map (·.mapError EnumerationFault.heuristic)) (Enumeration.run_mono hrun hle)⟩

/-- A lamp that is to be lit, and time to wait at no cost. -/
def idleLamp : Task where
  vars := #[⟨"lamp", ["off", "on"]⟩]
  operators := #[⟨"light", 1, [⟨0, 0⟩], [⟨0, 1⟩]⟩, ⟨"wait", 0, [⟨0, 0⟩], [⟨0, 0⟩]⟩]
  initial := #[0]
  goal := [⟨0, 1⟩]
  normalized := by decide +kernel
  faultless := by decide +kernel

theorem idleLamp_cost_le (op : Nat) : (idleLamp.operator op).cost ≤ 1 := by
  match op with
  | 0 => decide
  | 1 => decide
  | op + 2 =>
    rw [Task.operator, Array.getD_eq_getD_getElem?, Array.getElem?_eq_none (by simp [idleLamp])]
    decide

/-- Though one may wait for ever at no cost, three plans are found. -/
theorem Task.enumerate?_terminates_idleLamp :
    (∃ steps outcome, ∀ more, steps ≤ more →
      idleLamp.enumerate? .blind { count := some 3, unordered := true } {} more = some outcome) ∧
    ((idleLamp.enumerate? .blind { count := some 3, unordered := true } {} 20).bind
      Except.toOption).map Result.plans =
        some [⟨1, ["light"]⟩, ⟨1, ["wait", "light"]⟩, ⟨1, ["wait", "wait", "light"]⟩] := by
  have hset : idleLamp.enumerationSetting .blind { count := some 3, unordered := true } {} =
      .ok (.ofRequest idleLamp .blind { count := some 3, unordered := true } none {}) := rfl
  refine ⟨Task.enumerate?_terminates hset rfl (.inl rfl) fun s hs => ?_, by decide +kernel⟩
  exact hs.underway.1.recorded.inRange_of_states
    (symmetric_ofRequest none fun _ => Heuristic.blind_admissibleOnStates _) idleLamp_cost_le
    (by decide +kernel)

end RankedPlans
