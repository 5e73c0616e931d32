import RankedPlans.Proofs.Enumeration.Round
import RankedPlans.Proofs.Enumeration.Run

/-! An enumeration without a clock ends with the cheapest plans, one for each key. Each round is certified
by the least estimate at its start, whatever the batches before it did, so every result is exact. Symmetries
in the search leave this as it is, for every plan is the decoding of a walk among representatives. -/

namespace RankedPlans

open Search (root)

/-- The costs of the plans of a task. -/
def Task.planCosts (t : Task) : Set Int :=
  { cost | ∃ plan, t.planCost? plan = some cost }

/-- All groups in use consist of symmetries, sums of costs are in range, and nothing runs out of time. -/
structure EnumerationSetting.Regular (c : EnumerationSetting) : Prop where
  task : c.selection.task = c.search.task
  selection : c.selection.Sound
  limit : c.selection.limit = c.request.count
  grouped : c.search.Grouped
  inRange : ∀ s, Search.Faultless c.search s → s.graph.InRange root
  clock : c.expired = false

/-- Besides, the search opens nodes again, and the estimates are admissible. -/
structure EnumerationSetting.Certifying (c : EnumerationSetting) : Prop
    extends EnumerationSetting.Regular c where
  symmetric : c.search.Symmetric
  reopen : c.search.reopen = true
  admissible : c.search.heuristic.Admissible c.search.task

/-- The cheapest plans: no more than asked for and none beyond the bound. -/
structure Best (t : Task) (key : Plan → List Nat) (r : Request) (optimal : Option Int)
    (plans : List CostedPlan) : Prop where
  leading : Leading t key plans
  limit : ∀ n, r.count = some n → plans.length ≤ n
  within : ∀ least bound, optimal = some least → r.costBound? least = some bound →
    ∀ p ∈ plans, p.cost ≤ bound

/-- Every plan within the bound has the key of a listed one. -/
def Exhaustive (t : Task) (key : Plan → List Nat) (r : Request) (optimal : Option Int)
    (plans : List CostedPlan) : Prop :=
  ∀ plan cost, t.planCost? plan = some cost →
    (∀ least bound, optimal = some least → r.costBound? least = some bound → cost ≤ bound) →
    key plan ∈ plans.map (key ·.plan)

/-- A result that answers a request by these plans, given with their costs: each is stated as it is, or
as the top of the range of costs if it is beyond. -/
structure Result.Exact (t : Task) (key : Plan → List Nat) (r : Request) (res : Result)
    (plans : List CostedPlan) : Prop where
  plans_eq : res.plans = plans.map fun p => ⟨min Cost.top p.cost, t.actions p.plan⟩
  best : Best t key r res.optimalCost plans
  optimal : ∀ cost, res.optimalCost = some cost → IsLeast t.planCosts cost
  unknown : res.optimalCost = none → plans = []
  full : res.termination = .planLimitReached → r.count = some plans.length
  exhaustive : res.termination = .qualityBoundReached ∨ res.termination = .exhausted →
    Exhaustive t key r res.optimalCost plans

/-- The same for the task, the keys and the request of a setting; the least cost is in range. -/
structure EnumerationSetting.Answers (c : EnumerationSetting) (res : Result)
    (plans : List CostedPlan) : Prop where
  exact : res.Exact c.search.task c.selection.keyOf c.request plans
  inRange : ∀ cost, res.optimalCost = some cost → cost ≤ Cost.top

/-- The walks of a recorded graph decode to plans, whatever the estimates are. -/
theorem EnumerationSetting.Regular.readable {c : EnumerationSetting} {s : Search} (hc : c.Regular)
    (hs : Search.Faultless c.search s) : Readable c s := by
  have hrecorded := hs.underway.1.recorded
  have hrange := hc.inRange _ hs
  refine ⟨hrecorded.pathTree_spec hrange, hrecorded.priced hrange, fun es hes => ?_⟩
  rw [hc.task]
  exact ⟨hrecorded.planCost?_of_grouped hc.grouped hes, Search.decode_cost hrecorded hes⟩

namespace EnumerationSetting.Certifying

variable {c : EnumerationSetting} {s : Search}

theorem snapshot (hc : c.Certifying) (hs : Search.Faultless c.search s) :
    Snapshot c s.leastEstimate?.2 s.leastEstimate?.1 := by
  obtain ⟨hbefore, hroot⟩ := hs.progress hc.reopen
  refine ⟨hc.readable hs.leastEstimate, fun plan cost hplan hlt => ?_⟩
  rw [hc.task] at hplan
  obtain ⟨es, hes, hdecode, hcost⟩ := hbefore.exists_decoded hroot hc.admissible hc.symmetric hplan hlt
  have hsame := Search.leastEstimate?_sameRecord s
  exact ⟨es, hes, (congrArg CostedPlan.plan (hsame.decode_eq es)).trans hdecode, hcost⟩

end EnumerationSetting.Certifying

namespace Enumeration

variable {c : EnumerationSetting} {e : Enumeration} {rule : StopRule} {plans : List CostedPlan}

/-- The rule of a request whose cheapest plan is the one known. -/
def HasRule (c : EnumerationSetting) (e : Enumeration) (rule : StopRule) : Prop :=
  ∃ least, e.optimal = some least ∧ rule = .ofRequest c.request least c.expired

/-- What holds in each phase. -/
def PhaseSound (c : EnumerationSetting) (e : Enumeration) : Prop :=
  match e.phase with
  | .solving => e.optimal = none
  | .collecting rule paths selection frontier => e.HasRule c rule ∧ Snapshot c e.search frontier ∧
      ∃ cs plans, Collected c e.search rule.bound frontier paths selection cs plans
  | .searching rule _ _ _ => e.HasRule c rule

/-- What holds at any time, whatever the phase. -/
structure Certified (c : EnumerationSetting) (e : Enumeration) : Prop where
  faultless : Search.Faultless c.search e.search
  optimal : ∀ cost, e.optimal = some cost → IsLeast c.search.task.planCosts cost ∧ cost ≤ Cost.top
  unknown : e.optimal = none → e.best = []
  best : ∃ plans, e.best = plans.map CostedPlan.stated ∧
    Best c.search.task c.selection.keyOf c.request e.optimal plans

/-- An enumeration under way. -/
structure Sound (c : EnumerationSetting) (e : Enumeration) : Prop where
  certified : e.Certified c
  phase : e.PhaseSound c

end Enumeration

/-- An enumeration that goes on soundly or ends with an exact result. -/
def Progress.Sound (c : EnumerationSetting) : Progress → Prop
  | .going e => e.Sound c
  | .finished r => ∃ plans, c.Answers r plans
  | .failed _ => True

namespace Enumeration

variable {c : EnumerationSetting} {e : Enumeration} {rule : StopRule} {plans : List CostedPlan}
  {reason : Termination}

namespace Certified

theorem exact (h : e.Certified c) (hlist : e.best = plans.map CostedPlan.stated)
    (hbest : Best c.search.task c.selection.keyOf c.request e.optimal plans)
    (hfull : reason = .planLimitReached → c.request.count = some plans.length)
    (hexhaustive : reason = .qualityBoundReached ∨ reason = .exhausted →
      Exhaustive c.search.task c.selection.keyOf c.request e.optimal plans) :
    c.Answers (e.result c reason) plans where
  exact :=
    { plans_eq := by
        rw [result, hlist, List.map_map]
        rfl
      best := hbest
      optimal := fun cost hcost => (h.optimal cost hcost).1
      unknown := fun hnone => List.map_eq_nil_iff.mp (hlist.symm.trans (h.unknown hnone))
      full := hfull
      exhaustive := hexhaustive }
  inRange := fun cost hcost => (h.optimal cost hcost).2

/-- A result that promises nothing about plans that are not listed. -/
theorem exists_exact (h : e.Certified c) (hfull : reason ≠ .planLimitReached)
    (hbound : reason ≠ .qualityBoundReached) (hall : reason ≠ .exhausted) :
    ∃ plans, c.Answers (e.result c reason) plans := by
  obtain ⟨plans, hlist, hbest⟩ := h.best
  exact ⟨plans, h.exact hlist hbest (absurd · hfull) fun hor => absurd hor (by simp [hbound, hall])⟩

end Certified

/-- The first round learns the least cost of a plan, and later rounds keep it. -/
theorem Certified.startRound (h : e.Certified c) (hc : c.Certifying)
    (hleast : e.optimal = none → ∀ cost, e.search.pathTree.optimalCost? = some cost →
      IsLeast c.search.task.planCosts cost) : (e.startRound c).Sound c := by
  rw [startRound_eq]
  cases hcost : e.search.pathTree.optimalCost? with
  | none =>
    exact Certified.exists_exact
      (e := { e with search := e.search.leastEstimate?.2, rounds := e.rounds + 1 })
      ⟨h.faultless.leastEstimate, h.optimal, h.unknown, h.best⟩ nofun nofun nofun
  | some cost =>
    obtain ⟨plans, hlist, hbest⟩ := h.best
    refine ⟨⟨h.faultless.leastEstimate, fun cost' hsome => ?_, nofun, plans, hlist, hbest.leading,
      hbest.limit, fun least bound hsome => ?_⟩, ⟨_, rfl, rfl⟩, hc.snapshot h.faultless, [], [],
      .start ..⟩
    · obtain rfl := Option.some.inj hsome
      cases hoptimal : e.optimal with
      | none =>
        have hs := (h.faultless.progress hc.reopen).1.recorded
        exact ⟨hleast hoptimal cost hcost,
          (hs.optimalCost?_spec (hc.inRange _ h.faultless) hcost).1⟩
      | some least => exact h.optimal least hoptimal
    · obtain rfl := Option.some.inj hsome
      cases hoptimal : e.optimal with
      | none =>
        obtain rfl := List.map_eq_nil_iff.mp (hlist.symm.trans (h.unknown hoptimal))
        simp
      | some least => exact hbest.within least bound hoptimal

theorem Certified.solve (h : e.Certified c) (hc : c.Certifying) (hphase : e.phase = .solving)
    (hnone : e.optimal = none) : (e.solve c).Sound c := by
  unfold Enumeration.solve
  rw [hc.clock, if_neg Bool.false_ne_true]
  rcases hstep : e.search.step c.search with ⟨search, outcome⟩
  have hfaultless : (∀ fault, outcome ≠ .failed fault) → Search.Faultless c.search search := by
    intro hok
    have hnext := h.faultless.step (by rwa [hstep])
    rwa [hstep] at hnext
  cases outcome with
  | expanded goal =>
    refine ⟨⟨hfaultless nofun, h.optimal, h.unknown, h.best⟩, ?_⟩
    rw [PhaseSound, hphase]
    exact hnone
  | solved solved =>
    have hnext := hfaultless nofun
    refine Certified.startRound (e := { e with search })
      ⟨hnext, h.optimal, h.unknown, h.best⟩ hc fun _ cost hcost => ?_
    have hsearch : (e.search.step c.search).1 = search := congrArg Prod.fst hstep
    refine h.faultless.isLeast_optimalCost? hc.symmetric hc.reopen hc.admissible ?_
      (congrArg Prod.snd hstep) ?_
    · rw [hsearch]
      exact hc.inRange _ hnext
    · rw [hsearch]
      exact hcost
  | exhausted =>
    exact Certified.exists_exact (e := { e with search })
      ⟨hfaultless nofun, h.optimal, h.unknown, h.best⟩ nofun nofun nofun
  | full =>
    exact Certified.exists_exact (e := { e with search })
      ⟨hfaultless nofun, h.optimal, h.unknown, h.best⟩ nofun nofun nofun
  | failed fault => exact trivial

theorem Certified.continueBatch (h : e.Certified c) (hc : c.Certifying) (hrule : e.HasRule c rule)
    (threshold : Option Int) (bounds : BatchBounds) (steps : Nat) :
    (e.continueBatch c rule threshold bounds steps).Sound c := by
  obtain ⟨least, hleast, hrule⟩ := hrule
  have hnext := h.faultless.leastEstimate
  unfold Enumeration.continueBatch
  simp only
  split
  · refine Certified.startRound (e := { e with search := e.search.leastEstimate?.2 })
      ⟨hnext, h.optimal, h.unknown, h.best⟩ hc fun hnone => ?_
    cases hleast.symm.trans hnone
  · exact ⟨⟨hnext, h.optimal, h.unknown, h.best⟩, least, hleast, hrule⟩

theorem Certified.searchOn (h : e.Certified c) (hc : c.Certifying) (hrule : e.HasRule c rule)
    (threshold : Option Int) (bounds : BatchBounds) (steps : Nat) :
    (e.searchOn c rule threshold bounds steps).Sound c := by
  obtain ⟨least, hleast, heq⟩ := hrule
  unfold Enumeration.searchOn
  rw [heq, StopRule.ofRequest, hc.clock, if_neg Bool.false_ne_true]
  rcases hstep : e.search.step c.search with ⟨search, outcome⟩
  have hnext : (∀ fault, outcome ≠ .failed fault) → Certified c { e with search } := by
    intro hok
    have hfaultless := h.faultless.step (by rwa [hstep])
    rw [hstep] at hfaultless
    exact ⟨hfaultless, h.optimal, h.unknown, h.best⟩
  have hround : (∀ fault, outcome ≠ .failed fault) →
      (Enumeration.startRound c { e with search }).Sound c := fun hok =>
    (hnext hok).startRound hc fun hnone => nomatch hleast.symm.trans hnone
  cases outcome with
  | expanded goal =>
    simp only
    split
    · exact hround nofun
    · exact (hnext nofun).continueBatch hc ⟨least, hleast, by rw [StopRule.ofRequest, hc.clock]⟩ ..
  | solved solved =>
    exact (hnext nofun).continueBatch hc ⟨least, hleast, by rw [StopRule.ofRequest, hc.clock]⟩ ..
  | exhausted => exact hround nofun
  | full => exact (hnext nofun).exists_exact nofun nofun nofun
  | failed fault => exact trivial

section Collecting

variable {paths : PathEnumeration} {selection : Selection} {frontier : Option Int}
  {cs : List Candidate}

theorem best_of_collected (hc : c.Certifying) (hrule : e.HasRule c rule)
    (hs : Snapshot c e.search frontier)
    (h : Collected c e.search rule.bound frontier paths selection cs plans) :
    Best c.search.task c.selection.keyOf c.request e.optimal plans := by
  obtain ⟨least, hleast, rfl⟩ := hrule
  refine ⟨hc.task ▸ h.leading hs, fun n hn => h.holds.limit n (hc.limit.trans hn), ?_⟩
  intro least' bound hleast' hbound p hp
  obtain rfl := Option.some.inj (hleast.symm.trans hleast')
  obtain ⟨cand, hcand, heq, -⟩ := h.listed p hp
  exact heq ▸ (h.within cand hcand).1 bound hbound

theorem Certified.endRound (h : e.Certified c) (hc : c.Certifying) (hrule : e.HasRule c rule)
    (hs : Snapshot c e.search frontier)
    (hcollected : Collected c e.search rule.bound frontier paths selection cs plans) :
    (e.endRound selection).Certified c := by
  have hbest := best_of_collected hc hrule hs hcollected
  obtain ⟨least, hleast, -⟩ := hrule
  exact ⟨h.faultless, h.optimal, fun hnone => (nomatch hleast.symm.trans hnone), plans,
    hcollected.holds.plans_eq, hbest⟩

/-- A round that ends the enumeration. -/
theorem Certified.exact_of_stop (h : e.Certified c) (hc : c.Certifying) (hrule : e.HasRule c rule)
    (hs : Snapshot c e.search frontier)
    (hcollected : Collected c e.search rule.bound frontier paths selection cs plans)
    (hstop : rule.judge selection.size paths.nextCost? frontier = .stop reason) :
    c.Answers ((e.endRound selection).result c reason) plans := by
  have hend := h.endRound hc hrule hs hcollected
  have hbest := best_of_collected hc hrule hs hcollected
  obtain ⟨least, hleast, rfl⟩ := hrule
  refine hend.exact hcollected.holds.plans_eq hbest (fun hfull => ?_) fun hreason => ?_
  · rcases StopRule.judge_stop hc.clock hstop with ⟨-, hlimit⟩ | ⟨heq, -⟩ | ⟨heq, -⟩
    · obtain ⟨n, hn, hle⟩ := (Option.any_eq_true ..).mp hlimit
      have hle := of_decide_eq_true hle
      rw [hcollected.holds.size_eq] at hle
      rw [show c.request.count = some n from hn, Nat.le_antisymm (hbest.limit n hn) hle]
    · cases hfull.symm.trans heq
    · cases hfull.symm.trans heq
  · intro plan cost hplan hwithin
    rw [← hc.task] at hplan
    exact hcollected.complete hs hc.clock hstop hreason hplan fun bound => hwithin least bound hleast

theorem Certified.collect (h : e.Certified c) (hc : c.Certifying) (hrule : e.HasRule c rule)
    (hs : Snapshot c e.search frontier)
    (hcollected : Collected c e.search rule.bound frontier paths selection cs plans) :
    (e.collect c rule paths selection frontier).Sound c := by
  have hbatch : ∀ threshold, Progress.Sound c
      (.going ((e.endRound selection).startBatch c rule threshold)) := by
    intro threshold
    obtain ⟨hfaultless, hoptimal, hunknown, hbest⟩ := h.endRound hc hrule hs hcollected
    exact ⟨⟨hfaultless, hoptimal, hunknown, hbest⟩, hrule⟩
  unfold Enumeration.collect
  cases hverdict : rule.judge selection.size paths.nextCost? frontier with
  | stop reason =>
    have hexact := h.exact_of_stop hc hrule hs hcollected hverdict
    obtain ⟨least, -, rfl⟩ := hrule
    have hclock : reason ≠ .timeout := by
      rcases StopRule.judge_stop hc.clock hverdict with ⟨rfl, -⟩ | ⟨rfl, -⟩ | ⟨rfl, -⟩ <;> nofun
    simp only [hclock, decide_false, Bool.false_and, Bool.false_eq_true, if_false]
    exact ⟨plans, hexact⟩
  | search threshold => exact hbatch threshold
  | accept =>
    simp only
    cases hnext : paths.next? with
    | none => exact hbatch none
    | some r =>
      obtain ⟨cand, paths'⟩ := r
      obtain ⟨least, hleast, rfl⟩ := hrule
      obtain ⟨more, hmore⟩ := hcollected.accept hs.toReadable hc.selection hc.limit.symm hverdict hnext
      exact ⟨⟨h.faultless, h.optimal, h.unknown, h.best⟩, ⟨least, hleast, rfl⟩, hs, _, _, hmore⟩

end Collecting

theorem Sound.step (h : e.Sound c) (hc : c.Certifying) : (e.step c).Sound c := by
  obtain ⟨hcertified, hphase⟩ := h
  unfold Enumeration.step
  unfold PhaseSound at hphase
  cases heq : e.phase with
  | solving =>
    rw [heq] at hphase
    exact hcertified.solve hc heq hphase
  | collecting rule paths selection frontier =>
    rw [heq] at hphase
    obtain ⟨hrule, hs, cs, plans, hcollected⟩ := hphase
    exact hcertified.collect hc hrule hs hcollected
  | searching rule threshold bounds steps =>
    rw [heq] at hphase
    exact hcertified.searchOn hc hphase threshold bounds steps

theorem Sound.run (h : e.Sound c) (hc : c.Certifying) {fuel : Nat} {res : Result}
    (hrun : e.run c fuel = some (.ok res)) : ∃ plans, c.Answers res plans := by
  induction fuel generalizing e with
  | zero => cases hrun
  | succ fuel ih =>
    have hstep := h.step hc
    rw [Enumeration.run] at hrun
    cases hprogress : e.step c with
    | going e' =>
      rw [hprogress] at hrun hstep
      exact ih hstep hrun
    | finished r =>
      rw [hprogress] at hrun hstep
      obtain rfl := Except.ok.inj (Option.some.inj hrun)
      exact hstep
    | failed fault =>
      rw [hprogress] at hrun
      cases hrun

theorem start_sound (h : Enumeration.start c = .ok e) : e.Sound c := by
  unfold Enumeration.start at h
  cases hstart : Search.start c.search with
  | error fault =>
    rw [hstart] at h
    cases h
  | ok s =>
    rw [hstart] at h
    obtain rfl := Except.ok.inj h
    have hleading : Leading c.search.task c.selection.keyOf [] := ⟨nofun, .nil, .nil, nofun⟩
    exact ⟨⟨.start hstart, nofun, fun _ => rfl, [], rfl, hleading, fun n _ => Nat.zero_le n, nofun⟩,
      rfl⟩

end Enumeration

variable {t : Task} {h : Heuristic} {r : Request} {p : Policy} {c : EnumerationSetting}

/-- A search that is pruned by symmetries needs estimates that are admissible on all states. -/
theorem symmetric_ofRequest (preserved : Option Pattern)
    (hprune : p.symmetry.pruneSearch = true → h.AdmissibleOnStates t) :
    (EnumerationSetting.ofRequest t h r preserved p).search.Symmetric := by
  intro g hg
  refine ⟨(groups_sound t p.symmetry).1 g hg, ?_⟩
  change (if p.symmetry.pruneSearch then _ else none) = some g at hg
  split at hg
  · rename_i hon
    exact hprune hon
  · cases hg

theorem regular_of_enumerationSetting (hset : t.enumerationSetting h r p = .ok c)
    (hclock : r.milliseconds = none)
    (hrange : ∀ s, Search.Faultless c.search s → s.graph.InRange root) : c.Regular := by
  have hgrouped := grouped_of_enumerationSetting hset
  obtain ⟨preserved, rfl⟩ := enumerationSetting_eq hset
  obtain ⟨-, hplan⟩ := groups_sound t p.symmetry
  refine ⟨rfl, ⟨fun g hg => ?_, fun g hg => ?_⟩, rfl, hgrouped, hrange, ?_⟩
  · change (if p.symmetry.mergePlans then _ else none) = some g at hg
    split at hg
    · exact hplan g hg
    · cases hg
  · change (if p.symmetry.extendPlans then _ else none) = some g at hg
    split at hg
    · exact (hplan g hg).1
    · cases hg
  · change decide (r.milliseconds = some 0) = false
    rw [hclock]
    rfl

theorem certifying_of_enumerationSetting (hset : t.enumerationSetting h r p = .ok c)
    (hadm : h.Admissible t) (hclock : r.milliseconds = none) (hreopen : p.reopen = true)
    (hprune : p.symmetry.pruneSearch = true → h.AdmissibleOnStates t)
    (hrange : ∀ s, Search.Faultless c.search s → s.graph.InRange root) : c.Certifying := by
  have hregular := regular_of_enumerationSetting hset hclock hrange
  obtain ⟨preserved, rfl⟩ := enumerationSetting_eq hset
  exact ⟨hregular, symmetric_ofRequest preserved hprune, hreopen, hadm⟩

/-- Whatever result a certifying enumeration gives, it lists the cheapest plans. -/
theorem EnumerationSetting.Certifying.exists_answers (hc : c.Certifying)
    (hset : t.enumerationSetting h r p = .ok c) {steps : Nat} {res : Result}
    (hres : t.enumerate? h r p steps = some (.ok res)) : ∃ plans, c.Answers res plans := by
  obtain ⟨e, hstart, hrun⟩ := (Task.enumerate?_eq_some_ok_iff hset).mp hres
  exact (Enumeration.start_sound hstart).run hc hrun

/-- Whenever an enumeration without a clock and without symmetries in its search gives a result, and sums
of costs stay in range, the result lists the cheapest plans by their keys, and the plans of one key cost
the same. -/
theorem Task.enumerate?_exact (hset : t.enumerationSetting h r p = .ok c) (hadm : h.Admissible t)
    (hclock : r.milliseconds = none) (hreopen : p.reopen = true)
    (hprune : p.symmetry.pruneSearch = false)
    (hrange : ∀ s, Search.Faultless c.search s → s.graph.InRange root) {steps : Nat} {res : Result}
    (hres : t.enumerate? h r p steps = some (.ok res)) :
    (∃ plans, res.Exact t c.selection.keyOf r plans) ∧
    ∀ plan plan' cost cost', t.planCost? plan = some cost → t.planCost? plan' = some cost' →
      c.selection.keyOf plan = c.selection.keyOf plan' → cost = cost' := by
  have hc := certifying_of_enumerationSetting hset hadm hclock hreopen
    (fun hon => nomatch hprune.symm.trans hon) hrange
  obtain ⟨plans, hanswers⟩ := hc.exists_answers hset hres
  obtain ⟨preserved, rfl⟩ := enumerationSetting_eq hset
  exact ⟨⟨plans, hanswers.exact⟩, fun plan plan' cost cost' => hc.selection.cost_eq_of_keyOf_eq⟩

namespace Search

/-- After the move no operator is applicable, so no run costs more than the move. -/
theorem singleMove_costsFit : singleMove.CostsFit := by
  intro plan x cost hrun _
  have hfirst : singleMove.applicable singleMove.initial = [0] := by decide +kernel
  have hsecond : singleMove.applicable (singleMove.apply singleMove.initial 0) = [] := by
    decide +kernel
  cases plan with
  | nil =>
    obtain ⟨-, rfl⟩ := Prod.mk.inj (Option.some.inj hrun)
    decide
  | cons op plan =>
    obtain ⟨hop, left, hleft, rfl⟩ := Task.run?_cons_eq_some_iff.mp hrun
    obtain rfl : op = 0 := by simpa [hfirst] using hop
    cases plan with
    | nil =>
      obtain ⟨-, rfl⟩ := Prod.mk.inj (Option.some.inj hleft)
      decide +kernel
    | cons op plan =>
      obtain ⟨hop, -⟩ := Task.run?_cons_eq_some_iff.mp hleft
      simp [hsecond] at hop

end Search

/-- Three plans are wanted. -/
def threePlans : Request := { count := some 3 }

/-- Of a task with one plan three are wanted: the result lists it, and there is no other. -/
theorem Task.enumerate?_exact_singleMove : ∃ res plans,
    Search.singleMove.enumerate? .blind threePlans {} 20 = some (.ok res) ∧
    res.plans = [⟨1, ["move"]⟩] ∧ IsLeast Search.singleMove.planCosts 1 ∧
    res.Exact Search.singleMove PlanKey.ordered.encode threePlans plans ∧
    ∀ plan cost, Search.singleMove.planCost? plan = some cost → plan ∈ plans.map CostedPlan.plan := by
  have hset : Search.singleMove.enumerationSetting .blind threePlans {} =
      .ok (.ofRequest Search.singleMove .blind threePlans none {}) := rfl
  have hvalue : ((Search.singleMove.enumerate? .blind threePlans {} 20).bind Except.toOption).map
      (fun res => (res.plans, res.termination, res.optimalCost)) =
      some ([⟨1, ["move"]⟩], .exhausted, some 1) := by decide +kernel
  obtain ⟨res, hrun, heq⟩ := exists_ok_of_map_eq hvalue
  simp only [Prod.mk.injEq] at heq
  obtain ⟨hplans, htermination, hoptimal⟩ := heq
  obtain ⟨⟨plans, hexact⟩, -⟩ := Task.enumerate?_exact hset (Heuristic.blind_admissible _) rfl rfl rfl
    (fun s hs => (hs.progress rfl).1.recorded.inRange rfl Search.singleMove_costsFit) hrun
  refine ⟨res, plans, hrun, hplans, hexact.optimal 1 hoptimal, hexact, fun plan cost hplan => ?_⟩
  refine hexact.exhaustive (.inr htermination) plan cost hplan fun least bound _ hbound => ?_
  cases hbound

end RankedPlans
