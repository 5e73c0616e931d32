import RankedPlans.Proofs.Enumeration.Run
import RankedPlans.Proofs.Enumeration.Termination
import RankedPlans.Proofs.Graph.Reachability
import RankedPlans.Proofs.Search.Exhaustion

/-! An enumeration calls a task unsolvable exactly if the task has no plan. While a first plan is sought,
every step lowers the rank of a node, so the search either takes the sink or runs out of nodes; in the
latter case there is no plan. Once the sink is taken a walk to it is recorded for good, every round finds
a distance for it, and no later end is called unsolvable. The estimates need not be admissible, closed
nodes need not be opened again, and sums of costs may leave their range. -/

namespace RankedPlans

open Search (root sink)

namespace Search

variable {c : SearchSetting} {s : Search}

theorem Recorded.joined (h : Recorded c s) : s.graph.Joined root where
  root_lt := lt_nodes_of_stateOf? h.size_eq h.root_state
  source_lt he := by
    obtain ⟨x, hx, -⟩ := h.meant he
    exact lt_nodes_of_stateOf? h.size_eq hx
  target_lt he := h.target_lt he

/-- If a walk to the sink is recorded, the tree has a cost for it, be it the right one or not. -/
theorem Recorded.exists_optimalCost? (h : Recorded c s) (hwalk : ∃ es, s.graph.Walk root es sink) :
    ∃ cost, s.pathTree.optimalCost? = some cost := by
  obtain ⟨es, hes⟩ := hwalk
  exact h.joined.exists_distance? sink hes

theorem Grows.walk {s' : Search} (h : Grows s s') (hwalk : ∃ es, s.graph.Walk root es sink) :
    ∃ es, s'.graph.Walk root es sink := by
  obtain ⟨es, hes⟩ := hwalk
  have hedge : ∀ {e edge}, s.graph.edges[e]? = some edge → s'.graph.edges[e]? = some edge := h.edge
  exact ⟨es, (hes.mono hedge).1⟩

end Search

theorem StopRule.judge_ne_unsolvable (rule : StopRule) (n : Nat) (next frontier : Option Int) :
    rule.judge n next frontier ≠ .stop .unsolvable := by
  intro hstop
  cases hclock : rule.expired with
  | true => simp [judge, hclock] at hstop
  | false => rcases judge_stop hclock hstop with ⟨heq, -⟩ | ⟨heq, -⟩ | ⟨heq, -⟩ <;> cases heq

namespace Enumeration

variable {c : EnumerationSetting} {e : Enumeration}

/-- A first plan is sought. -/
structure Seeking (c : EnumerationSetting) (e : Enumeration) : Prop where
  phase : e.phase = .solving
  faultless : Search.Faultless c.search e.search
  sink : (e.search.node sink).status ≠ .closed
  best : e.best = []
  optimal : e.optimal = none

/-- A plan is recorded. -/
structure Found (c : EnumerationSetting) (e : Enumeration) : Prop where
  phase : e.phase ≠ .solving
  recorded : Search.Recorded c.search e.search
  walk : ∃ es, e.search.graph.Walk root es sink

end Enumeration

/-- An enumeration that has recorded a plan, or an end that is not called unsolvable. -/
def Progress.Solvable (c : EnumerationSetting) : Progress → Prop
  | .going e => e.Found c
  | .finished r => r.termination ≠ .unsolvable
  | .failed _ => True

namespace Enumeration

variable {c : EnumerationSetting} {e : Enumeration} {steps : Nat} {res : Result}

theorem Found.planCost? (h : e.Found c) (hc : c.search.Grouped) :
    ∃ plan cost, c.search.task.planCost? plan = some cost := by
  obtain ⟨es, hes⟩ := h.walk
  exact ⟨_, _, h.recorded.planCost?_of_grouped hc hes⟩

theorem startRound_found (hs : Search.Recorded c.search e.search)
    (hwalk : ∃ es, e.search.graph.Walk root es sink) :
    ∃ e', e.startRound c = .going e' ∧ e'.Found c := by
  obtain ⟨cost, hcost⟩ := hs.exists_optimalCost? hwalk
  have hsame := Search.leastEstimate?_sameRecord e.search
  rw [startRound_eq, hcost]
  exact ⟨_, rfl, nofun, hsame.recorded hs, hsame.grows.walk hwalk⟩

theorem startRound_solvable (hs : Search.Recorded c.search e.search)
    (hwalk : ∃ es, e.search.graph.Walk root es sink) : (e.startRound c).Solvable c := by
  obtain ⟨e', heq, hfound⟩ := startRound_found hs hwalk
  rw [heq]
  exact hfound

theorem Found.continueBatch (h : e.Found c) (rule : StopRule) (threshold : Option Int)
    (bounds : BatchBounds) (steps : Nat) :
    (e.continueBatch c rule threshold bounds steps).Solvable c := by
  have hsame := Search.leastEstimate?_sameRecord e.search
  have hs := hsame.recorded h.recorded
  have hwalk := hsame.grows.walk h.walk
  unfold Enumeration.continueBatch
  simp only
  split
  · exact startRound_solvable hs hwalk
  · exact ⟨nofun, hs, hwalk⟩

theorem Found.searchOn (h : e.Found c) (hphase : ∀ search, { e with search }.phase ≠ .solving)
    (rule : StopRule) (threshold : Option Int) (bounds : BatchBounds) (steps : Nat) :
    (e.searchOn c rule threshold bounds steps).Solvable c := by
  obtain ⟨hs, hgrows⟩ := Search.step_recorded h.recorded
  have hwalk := hgrows.walk h.walk
  unfold Enumeration.searchOn
  split
  · nofun
  · rcases hstep : e.search.step c.search with ⟨search, outcome⟩
    rw [hstep] at hs hwalk
    have hnext : Found c { e with search } := ⟨hphase search, hs, hwalk⟩
    cases outcome with
    | exhausted => exact startRound_solvable hs hwalk
    | full => nofun
    | failed fault => trivial
    | expanded goal =>
      simp only
      split
      · exact startRound_solvable hs hwalk
      · exact hnext.continueBatch ..
    | solved cost => exact hnext.continueBatch ..

theorem Found.collect (h : e.Found c) (rule : StopRule) (paths : PathEnumeration)
    (selection : Selection) (frontier : Option Int) :
    (e.collect c rule paths selection frontier).Solvable c := by
  unfold Enumeration.collect
  cases hverdict : rule.judge selection.size paths.nextCost? frontier with
  | stop reason =>
    rintro rfl
    exact rule.judge_ne_unsolvable _ _ _ hverdict
  | search threshold => exact ⟨nofun, h.recorded, h.walk⟩
  | accept =>
    simp only
    cases paths.next? with
    | none => exact ⟨nofun, h.recorded, h.walk⟩
    | some next => exact ⟨nofun, h.recorded, h.walk⟩

theorem Found.step (h : e.Found c) : (e.step c).Solvable c := by
  unfold Enumeration.step
  cases heq : e.phase with
  | solving => exact absurd heq h.phase
  | collecting rule paths selection frontier => exact h.collect ..
  | searching rule threshold bounds steps =>
    refine h.searchOn (fun search => ?_) ..
    rw [heq]
    nofun

theorem Found.run (h : e.Found c) (hrun : e.run c steps = some (.ok res)) :
    res.termination ≠ .unsolvable := by
  induction steps generalizing e with
  | zero => cases hrun
  | succ steps ih =>
    have hstep := h.step
    rw [run_succ] at hrun
    cases hprogress : e.step c with
    | going e' =>
      rw [hprogress] at hrun hstep
      exact ih hstep hrun
    | finished r =>
      rw [hprogress] at hrun hstep
      obtain rfl := Except.ok.inj (Option.some.inj hrun)
      exact hstep
    | failed fault =>
      rw [hprogress] at hrun
      cases hrun

/-- The end of an enumeration that has found nothing. -/
def Unsolvable (c : EnumerationSetting) (res : Result) : Prop :=
  res.termination = .unsolvable ∧ res.plans = [] ∧ res.optimalCost = none ∧
    ∀ plan, c.search.task.planCost? plan = none

/-- A step that seeks a first plan lowers the rank of a node, finds a plan or shows that there is none. -/
theorem Seeking.step (h : e.Seeking c) (hc : c.search.Grouped)
    (hpos : c.search.heuristic.Nonnegative c.search.task)
    (hdead : c.search.heuristic.DeadEndsSound c.search.task) (hclock : c.expired = false)
    (hlimit : c.search.stateLimit = none) :
    (∃ e', e.step c = .going e' ∧ e'.Seeking c ∧
      Search.work c.search e'.search < Search.work c.search e.search) ∨
    (∃ e', e.step c = .going e' ∧ e'.Found c) ∨
    ∃ res, e.step c = .finished res ∧ Unsolvable c res := by
  obtain ⟨hs, hroot⟩ := h.faultless.underway
  have hfault := hs.step_ne_failed hc hpos
  have hnext := h.faultless.step hfault
  have hless := hs.work_step_lt (c := c.search) hc
  have hsink := hs.sink_step h.sink
  have hwalk : ∀ cost, (e.search.step c.search).2 = .solved cost →
      ∃ es, (e.search.step c.search).1.graph.Walk root es Search.sink := fun _ =>
        hs.exists_walk_of_solved
  have hnone := hs.planCost?_of_exhausted hroot hc hdead h.sink
  have hfull := hs.step_ne_full hlimit
  have hrecorded := (Search.step_recorded hs.recorded).1
  unfold Enumeration.step
  rw [h.phase]
  simp only
  unfold Enumeration.solve
  rw [hclock, if_neg Bool.false_ne_true]
  rcases hstep : e.search.step c.search with ⟨search, outcome⟩
  rw [hstep] at hfault hnext hless hsink hwalk hnone hfull hrecorded
  cases outcome with
  | expanded goal =>
    exact .inl ⟨_, rfl, ⟨h.phase, hnext, hsink nofun, h.best, h.optimal⟩, hless nofun nofun⟩
  | solved cost =>
    exact .inr (.inl (startRound_found (e := { e with search }) hrecorded (hwalk cost rfl)))
  | exhausted =>
    refine .inr (.inr ⟨_, rfl, rfl, ?_, h.optimal, hnone rfl⟩)
    simp only [Enumeration.result, h.best, List.map_nil]
  | full => exact absurd rfl hfull
  | failed fault => exact absurd rfl (hfault fault)

/-- The search for a first plan ends. -/
theorem Seeking.ends (h : e.Seeking c) (hc : c.search.Grouped)
    (hpos : c.search.heuristic.Nonnegative c.search.task)
    (hdead : c.search.heuristic.DeadEndsSound c.search.task) (hclock : c.expired = false)
    (hlimit : c.search.stateLimit = none) :
    (∃ e', Leads c e (.going e') ∧ e'.Found c) ∨
    ∃ res, Leads c e (.finished res) ∧ Unsolvable c res := by
  -- The induction is on what is left to do, the sum of the ranks.
  induction hwork : Search.work c.search e.search using Nat.strong_induction_on generalizing e with
  | _ work ih =>
    subst hwork
    rcases h.step hc hpos hdead hclock hlimit with ⟨e', hstep, hseeking, hless⟩ | ⟨e', hstep, hfound⟩ |
      ⟨res, hstep, hres⟩
    · rcases ih _ hless hseeking rfl with ⟨e'', hleads, hfound⟩ | ⟨res, hleads, hres⟩
      · exact .inl ⟨e'', hleads.next hstep, hfound⟩
      · exact .inr ⟨res, hleads.next hstep, hres⟩
    · exact .inl ⟨e', .of_step hstep, hfound⟩
    · exact .inr ⟨res, .of_step hstep, hres⟩

theorem start_seeking (h : Enumeration.start c = .ok e) : e.Seeking c := by
  obtain ⟨s, hs, rfl⟩ := start_eq_ok_iff.mp h
  refine ⟨rfl, .start hs, ?_, rfl, rfl⟩
  rw [Search.sink_start hs]
  nofun

end Enumeration

variable {t : Task} {h : Heuristic} {r : Request} {p : Policy} {c : EnumerationSetting}

/-- Without a clock and a limit to the states, the search for a first plan always ends, and the enumeration is
called unsolvable, without plans and without a least cost, exactly if the task has no plan. -/
theorem Task.enumerate?_unsolvable_iff (hset : t.enumerationSetting h r p = .ok c)
    (hpos : h.Nonnegative t) (hdead : h.DeadEndsSound t) (hclock : r.milliseconds = none)
    (hlimit : p.stateLimit = none) :
    (∃ e, Enumeration.start c = .ok e ∧ ((∃ e', Enumeration.Leads c e (.going e') ∧ e'.phase ≠ .solving) ∨
      ∃ res, Enumeration.Leads c e (.finished res))) ∧
    ((∃ steps res, t.enumerate? h r p steps = some (.ok res) ∧ res.termination = .unsolvable) ↔
      ∀ plan, t.planCost? plan = none) ∧
    ∀ steps res, t.enumerate? h r p steps = some (.ok res) → res.termination = .unsolvable →
      res.plans = [] ∧ res.optimalCost = none := by
  have hc := grouped_of_enumerationSetting hset
  have hresult : ∀ steps res, t.enumerate? h r p steps = some (.ok res) ↔
      ∃ e, Enumeration.start c = .ok e ∧ e.run c steps = some (.ok res) := fun _ _ =>
    Task.enumerate?_eq_some_ok_iff hset
  obtain ⟨preserved, rfl⟩ := enumerationSetting_eq hset
  have hexpired : (EnumerationSetting.ofRequest t h r preserved p).expired = false := by
    change decide (r.milliseconds = some 0) = false
    rw [hclock]
    rfl
  obtain ⟨s, hs⟩ := Search.exists_start hc hpos
  have hstart := Enumeration.start_eq_ok_iff.mpr ⟨s, hs, rfl⟩
  simp only [hresult, hstart, Except.ok.injEq, exists_eq_left']
  rcases (Enumeration.start_seeking hstart).ends hc hpos hdead hexpired hlimit with
    ⟨e', hleads, hfound⟩ | ⟨res, hleads, hend, hplans, hcost, hnone⟩
  · have hsolvable : ∀ {steps res}, Enumeration.run (.ofRequest t h r preserved p) steps
        { search := s, phase := .solving } = some (.ok res) → res.termination ≠ .unsolvable := by
      intro steps res hrun
      obtain ⟨left, hleft⟩ := hleads.run_going hrun
      exact hfound.run hleft
    refine ⟨.inl ⟨e', hleads, hfound.phase⟩, ⟨?_, fun hnone => ?_⟩, ?_⟩
    · rintro ⟨steps, res, hrun, hend⟩
      exact absurd hend (hsolvable hrun)
    · obtain ⟨plan, cost, hplan⟩ := hfound.planCost? hc
      cases (hnone plan).symm.trans hplan
    · exact fun steps res hrun hend => absurd hend (hsolvable hrun)
  · refine ⟨.inr ⟨res, hleads⟩, ⟨fun _ => hnone, fun _ => ?_⟩, fun steps res' hrun _ => ?_⟩
    · obtain ⟨steps, hrun⟩ := hleads.exists_run
      exact ⟨steps, res, hrun, hend⟩
    · obtain rfl := Except.ok.inj (hleads.run_eq hrun)
      exact ⟨hplans, hcost⟩

/-- A door that could be shut if it were open, and is to be open. -/
def shutDoor : Task where
  vars := #[⟨"door", ["shut", "open"]⟩]
  operators := #[⟨"shut", 0, [⟨0, 1⟩], [⟨0, 0⟩]⟩]
  initial := #[0]
  goal := [⟨0, 1⟩]
  normalized := by decide +kernel
  faultless := by decide +kernel

/-- The search ends at once, so no sequence of operators is a plan. -/
theorem Task.enumerate?_unsolvable_shutDoor :
    (∃ res, shutDoor.enumerate? .blind { count := some 1 } { reopen := false } 5 = some (.ok res) ∧
      res.plans = [] ∧ res.optimalCost = none) ∧ ∀ plan, shutDoor.planCost? plan = none := by
  have hset : shutDoor.enumerationSetting .blind { count := some 1 } { reopen := false } =
      .ok (.ofRequest shutDoor .blind { count := some 1 } none { reopen := false }) := rfl
  have hvalue : ((shutDoor.enumerate? .blind { count := some 1 } { reopen := false } 5).bind
      Except.toOption).map Result.termination = some .unsolvable := by decide +kernel
  obtain ⟨res, hrun, hend⟩ := exists_ok_of_map_eq hvalue
  obtain ⟨-, hiff, hempty⟩ := Task.enumerate?_unsolvable_iff hset (Heuristic.blind_nonnegative _)
    (Heuristic.blind_deadEndsSound _) rfl rfl
  exact ⟨⟨res, hrun, hempty 5 res hrun hend⟩, hiff.mp ⟨5, res, hrun, hend⟩⟩

end RankedPlans
