import RankedPlans.Proofs.Enumeration.Exactness

/-! The rounds of an enumeration, one after the other. Each round starts over and replaces the plans of the
round before it, so it has to certify these once more. It does if its least estimate is higher, for every
plan that costs less is recorded; it also does if the least estimate is the same and plans bring nothing
along, for a recorded walk stays. Estimates that are admissible but not consistent may let the least
estimate fall, though, and then a round may end with fewer plans than the one before. -/

namespace RankedPlans

open Search (root sink)

/-- A round that has ended: the least sum of cost and estimate at its start, and how many plans it took. -/
structure Round where
  frontier : Option Int
  count : Nat
deriving DecidableEq, Repr

namespace Enumeration

/-- The round that ends with the next step. -/
def endedRound? (e : Enumeration) : Option Round :=
  match e.phase with
  | .collecting rule paths selection frontier =>
    if rule.judge selection.size paths.nextCost? frontier = .accept then none
    else some ⟨frontier, selection.size⟩
  | _ => none

/-- The rounds that end within so many steps, in order. -/
def endedRounds (c : EnumerationSetting) : Nat → Enumeration → List Round
  | 0, _ => []
  | steps + 1, e => e.endedRound?.toList ++
    match e.step c with
    | .going e => endedRounds c steps e
    | _ => []

end Enumeration

/-- The estimates at the start of the later round certify whatever the earlier one took. -/
def Round.Certifies (c : EnumerationSetting) (later earlier : Round) : Prop :=
  ∀ f, later.frontier = some f → ∃ f', earlier.frontier = some f' ∧
    (f' < f ∨ c.selection.Plain ∧ f' ≤ f)

namespace Search

variable {c : SearchSetting} {s s' : Search} {v w : Nat} {es : List Nat}

/-- A walk is decoded from its edges and their sources, which a longer record keeps. -/
theorem Grows.decode_eq (h : Grows s s') (hs : Recorded c s) (hes : s.graph.Walk v es w) :
    s'.decode c es = s.decode c es := by
  have hcost : ∀ total, es.foldl (fun total e =>
        Cost.add total ((s'.edges[e]?.map Edge.cost).getD 0)) total =
      es.foldl (fun total e => Cost.add total ((s.edges[e]?.map Edge.cost).getD 0)) total := by
    induction hes with
    | nil => exact fun _ => rfl
    | cons he _ ih =>
      intro total
      rw [List.foldl_cons, List.foldl_cons, h.edge he, ih, show s.edges[_]? = some _ from he]
  have hoperators : s'.operators es = s.operators es := by
    clear hcost
    induction hes with
    | nil => rfl
    | cons he _ ih =>
      unfold operators at ih ⊢
      rw [List.filterMap_cons, List.filterMap_cons, h.edge he, ih, show s.edges[_]? = some _ from he]
  have hfrom : ∀ g trace, decodeFrom c s' g trace es = decodeFrom c s g trace es := by
    intro g
    clear hcost hoperators
    induction hes with
    | nil => exact fun _ => rfl
    | @cons e w edge es he _ ih =>
      intro trace
      obtain ⟨x, hx, -⟩ := hs.meant he
      cases hlabel : edge.label with
      | operator op =>
        rw [decodeFrom_operator he hlabel hx, decodeFrom_operator (h.edge he) hlabel (h.state hx), ih]
      | goal => rw [decodeFrom_goal he hlabel, decodeFrom_goal (h.edge he) hlabel, ih]
  simp only [decode, hcost, hoperators, hfrom]

end Search

/-- A going enumeration records more, and keeps the least cost of a plan once it is known. -/
def Progress.Extends (e : Enumeration) : Progress → Prop
  | .going e' => Search.Grows e.search e'.search ∧
      ∀ least, e.optimal = some least → e'.optimal = some least
  | _ => True

namespace Enumeration

variable {c : EnumerationSetting} {e : Enumeration} {search : Search}

theorem startRound_extends (hg : Search.Grows e.search search) :
    (startRound c { e with search }).Extends e := by
  rw [startRound_eq]
  cases search.pathTree.optimalCost? with
  | none => trivial
  | some cost =>
    refine ⟨hg.trans (Search.leastEstimate?_sameRecord search).grows, fun least hleast => ?_⟩
    simp [hleast]

theorem continueBatch_extends (hg : Search.Grows e.search search) (rule : StopRule)
    (threshold : Option Int) (bounds : BatchBounds) (steps : Nat) :
    (continueBatch c { e with search } rule threshold bounds steps).Extends e := by
  have hsame := (Search.leastEstimate?_sameRecord search).grows
  unfold Enumeration.continueBatch
  simp only
  split
  · exact startRound_extends (hg.trans hsame)
  · exact ⟨hg.trans hsame, fun _ h => h⟩

theorem step_extends (hs : Search.Recorded c.search e.search) : (e.step c).Extends e := by
  have hgrows := (Search.step_recorded hs).2
  unfold Enumeration.step
  cases e.phase with
  | solving =>
    simp only [Enumeration.solve]
    split
    · trivial
    · rcases hstep : e.search.step c.search with ⟨search, outcome⟩
      rw [hstep] at hgrows
      cases outcome with
      | expanded goal => exact ⟨hgrows, fun _ h => h⟩
      | solved cost => exact startRound_extends hgrows
      | exhausted => trivial
      | full => trivial
      | failed fault => trivial
  | collecting rule paths selection frontier =>
    simp only [Enumeration.collect]
    split
    · trivial
    · exact ⟨.refl _, fun _ h => h⟩
    · split
      · exact ⟨.refl _, fun _ h => h⟩
      · exact ⟨.refl _, fun _ h => h⟩
  | searching rule threshold bounds steps =>
    simp only [Enumeration.searchOn]
    split
    · trivial
    · rcases hstep : e.search.step c.search with ⟨search, outcome⟩
      rw [hstep] at hgrows
      cases outcome with
      | expanded goal =>
        simp only
        split
        · exact startRound_extends hgrows
        · exact continueBatch_extends hgrows ..
      | solved cost => exact continueBatch_extends hgrows ..
      | exhausted => exact startRound_extends hgrows
      | full => trivial
      | failed fault => trivial

/-- The plans of a round, as far as later rounds have to find them again. -/
structure Retained (c : EnumerationSetting) (e : Enumeration) (r : Round) (plans : List CostedPlan) :
    Prop where
  length_eq : plans.length = r.count
  nodup : (plans.map (c.selection.keyOf ·.plan)).Nodup
  limit : ∀ n, c.request.count = some n → plans.length ≤ n
  valid : ∀ p ∈ plans, c.selection.task.planCost? p.plan = some p.cost
  le_frontier : ∀ p ∈ plans, ∀ f, r.frontier = some f → p.cost ≤ f
  known : ∃ least, e.optimal = some least ∧
    ∀ p ∈ plans, ∀ bound, c.request.costBound? least = some bound → p.cost ≤ bound
  walk : c.selection.Plain → ∀ p ∈ plans, ∃ es, e.search.graph.Walk root es sink ∧
    (e.search.decode c.search es).plan = p.plan ∧ e.search.graph.cost es = p.cost

variable {e' : Enumeration} {r r' : Round} {plans : List CostedPlan}

theorem Retained.going (h : Retained c e r plans) (hs : Search.Recorded c.search e.search)
    (hstep : e.step c = .going e') : Retained c e' r plans := by
  have hextends := step_extends (c := c) hs
  rw [hstep] at hextends
  obtain ⟨hgrows, hoptimal⟩ := hextends
  obtain ⟨least, hleast, hwithin⟩ := h.known
  have hedge : ∀ {k edge}, e.search.graph.edges[k]? = some edge →
      e'.search.graph.edges[k]? = some edge := hgrows.edge
  refine { h with known := ⟨least, hoptimal least hleast, hwithin⟩, walk := fun hplain p hp => ?_ }
  obtain ⟨es, hes, hplan, hcost⟩ := h.walk hplain p hp
  obtain ⟨hes', hcost'⟩ := hes.mono hedge
  exact ⟨es, hes', by rw [hgrows.decode_eq hs hes, hplan], hcost'.trans hcost⟩

/-- What holds when a round ends. -/
theorem Sound.of_endedRound? (h : e.Sound c) (hr : e.endedRound? = some r) :
    ∃ rule paths selection cs plans, e.phase = .collecting rule paths selection r.frontier ∧
      r.count = selection.size ∧ rule.judge selection.size paths.nextCost? r.frontier ≠ .accept ∧
      e.HasRule c rule ∧ Snapshot c e.search r.frontier ∧
      Collected c e.search rule.bound r.frontier paths selection cs plans := by
  obtain ⟨-, hphase⟩ := h
  unfold PhaseSound at hphase
  unfold endedRound? at hr
  cases heq : e.phase with
  | solving =>
    rw [heq] at hr
    cases hr
  | searching rule threshold bounds steps =>
    rw [heq] at hr
    cases hr
  | collecting rule paths selection frontier =>
    rw [heq] at hr hphase
    simp only at hr hphase
    split at hr
    · cases hr
    · rename_i hverdict
      obtain rfl := Option.some.inj hr
      obtain ⟨hrule, hs, cs, plans, hcollected⟩ := hphase
      exact ⟨rule, paths, selection, cs, plans, rfl, rfl, hverdict, hrule, hs, hcollected⟩

/-- A round that ends leaves its plans to be found again. -/
theorem Sound.retained (h : e.Sound c) (hc : c.Certifying) (hr : e.endedRound? = some r) :
    ∃ plans, Retained c e r plans := by
  obtain ⟨rule, paths, selection, cs, plans, -, hcount, -, ⟨least, hleast, rfl⟩, hs, hcollected⟩ :=
    h.of_endedRound? hr
  have hexact := hcollected.lists.exact hs.tree hs.priced
  refine ⟨plans, hcollected.holds.size_eq.symm.trans hcount.symm, hcollected.holds.nodup,
    fun n hn => hcollected.holds.limit n (hc.limit.trans hn), hcollected.holds.valid,
    fun p hp => ?_, ⟨least, hleast, fun p hp => ?_⟩, fun hplain p hp => ?_⟩
  · obtain ⟨cand, hcand, heq, -⟩ := hcollected.listed p hp
    exact heq ▸ (hcollected.within cand hcand).2
  · obtain ⟨cand, hcand, heq, -⟩ := hcollected.listed p hp
    exact heq ▸ (hcollected.within cand hcand).1
  · obtain ⟨cand, hcand, heq, hplan⟩ := hcollected.listed p hp
    obtain ⟨hwalk, htotal⟩ := hexact.walk cand hcand
    exact ⟨_, hwalk, hplan hplain, htotal.trans heq⟩

/-- A plan that was taken before is certified again: it is recorded, and its walk is listed. -/
theorem Retained.key_mem {rule : StopRule} {paths : PathEnumeration} {selection : Selection}
    {cs : List Candidate} {later : List CostedPlan} (h : Retained c e r' plans)
    (hcert : r.Certifies c r') (hclock : rule.expired = false) (hrule : e.HasRule c rule)
    (hs : Snapshot c e.search r.frontier)
    (hcollected : Collected c e.search rule.bound r.frontier paths selection cs later)
    (hverdict : rule.judge selection.size paths.nextCost? r.frontier ≠ .accept)
    (hroom : rule.limitReached selection.size ≠ true) {p : CostedPlan} (hp : p ∈ plans) :
    c.selection.keyOf p.plan ∈ later.map (c.selection.keyOf ·.plan) := by
  have hle : ∀ f, r.frontier = some f → p.cost ≤ f := by
    intro f hf
    obtain ⟨f', hf', hlt⟩ := hcert f hf
    have := h.le_frontier p hp f' hf'
    rcases hlt with hlt | ⟨-, hlt⟩ <;> omega
  -- A plan that was taken from a walk has it still; an image or a reordering costs strictly less than what
  -- waits, so a walk for it is recorded by now.
  obtain ⟨es, hes, hplan, hcost⟩ : ∃ es, e.search.graph.Walk root es sink ∧
      (e.search.decode c.search es).plan = p.plan ∧ e.search.graph.cost es = p.cost := by
    by_cases hplain : c.selection.Plain
    · exact h.walk hplain p hp
    · refine hs.certified p.plan p.cost (h.valid p hp) fun f hf => ?_
      obtain ⟨f', hf', hlt | ⟨hyes, -⟩⟩ := hcert f hf
      · exact Int.lt_of_le_of_lt (h.le_frontier p hp f' hf') hlt
      · exact absurd hyes hplain
  have hbound : ∀ bound, rule.bound = some bound → p.cost ≤ bound := by
    obtain ⟨least, hleast, rfl⟩ := hrule
    obtain ⟨least', hleast', hwithin⟩ := h.known
    obtain rfl := Option.some.inj (hleast.symm.trans hleast')
    exact hwithin p hp
  have hexact := hcollected.lists.exact hs.tree hs.priced
  rw [← hplan]
  refine hcollected.key_mem ?_
  cases hnext : paths.next? with
  | none => exact hexact.all hnext es hes
  | some next =>
    have hprice : paths.nextCost? = some next.1.cost := by
      rw [hexact.nextCost, hnext]
      rfl
    refine hexact.cheaper _ es hprice hes ?_
    rw [hcost]
    rcases (StopRule.judge_ne_accept hclock hverdict).resolve_left hroom _ hprice with
      ⟨bound, hb, hlt⟩ | ⟨f, hf, hlt⟩
    · exact Int.lt_of_le_of_lt (hbound bound hb) hlt
    · exact Int.lt_of_le_of_lt (hle f hf) hlt

/-- A round that certifies what an earlier one took has at least as many plans. -/
theorem Sound.count_le (h : e.Sound c) (hc : c.Certifying) (hr : e.endedRound? = some r)
    (hretained : Retained c e r' plans) (hcert : r.Certifies c r') : r'.count ≤ r.count := by
  obtain ⟨rule, paths, selection, cs, later, -, hcount, hverdict, hrule, hs, hcollected⟩ :=
    h.of_endedRound? hr
  have hclock : rule.expired = false := by
    obtain ⟨least, -, rfl⟩ := hrule
    exact hc.clock
  rw [← hretained.length_eq, hcount, hcollected.holds.size_eq]
  by_cases hfull : rule.limitReached selection.size = true
  · obtain ⟨least, -, rfl⟩ := hrule
    obtain ⟨n, hn, hle⟩ := (Option.any_eq_true ..).mp hfull
    have hle := of_decide_eq_true hle
    rw [hcollected.holds.size_eq] at hle
    exact Nat.le_trans (hretained.limit n hn) hle
  · have hsubset : plans.map (c.selection.keyOf ·.plan) ⊆ later.map (c.selection.keyOf ·.plan) := by
      intro key hkey
      obtain ⟨p, hp, rfl⟩ := List.mem_map.mp hkey
      exact hretained.key_mem hcert hclock hrule hs hcollected hverdict hfull hp
    simpa using (hretained.nodup.subperm hsubset).length_le

/-- Whatever was retained before is certified by every later round whose estimates allow it. -/
theorem Sound.rounds_keep (h : e.Sound c) (hc : c.Certifying) (steps : Nat) :
    (∀ r' plans, Retained c e r' plans → ∀ r : Round, r ∈ e.endedRounds c steps → r.Certifies c r' →
      r'.count ≤ r.count) ∧
    (e.endedRounds c steps).Pairwise fun earlier later =>
      later.Certifies c earlier → earlier.count ≤ later.count := by
  -- The induction is on the steps that are left; each step retains what the rounds before it took.
  induction steps generalizing e with
  | zero => exact ⟨fun _ _ _ _ hr => absurd hr List.not_mem_nil, .nil⟩
  | succ steps ih =>
    have hstep := h.step hc
    have hs := h.certified.faultless.underway.1.recorded
    have hmem : ∀ {r}, r ∈ e.endedRound?.toList → e.endedRound? = some r := fun hr =>
      Option.mem_toList.mp hr
    unfold endedRounds
    cases hprogress : e.step c with
    | going e' =>
      rw [hprogress] at hstep
      obtain ⟨hlater, hpairs⟩ := ih hstep
      refine ⟨fun r' plans hret r hr hcert => ?_, List.pairwise_append.mpr ⟨?_, hpairs, ?_⟩⟩
      · rcases List.mem_append.mp hr with hr | hr
        · exact h.count_le hc (hmem hr) hret hcert
        · exact hlater r' plans (hret.going hs hprogress) r hr hcert
      · cases e.endedRound? <;> simp
      · intro r' hr' r hr hcert
        obtain ⟨plans, hret⟩ := h.retained hc (hmem hr')
        exact hlater r' plans (hret.going hs hprogress) r hr hcert
    | finished res =>
      simp only [List.append_nil]
      refine ⟨fun r' plans hret r hr hcert => h.count_le hc (hmem hr) hret hcert, ?_⟩
      cases e.endedRound? <;> simp
    | failed fault =>
      simp only [List.append_nil]
      refine ⟨fun r' plans hret r hr hcert => h.count_le hc (hmem hr) hret hcert, ?_⟩
      cases e.endedRound? <;> simp

end Enumeration

/-- A going enumeration that has so many plans, or a result that lists so many. -/
def Progress.Lists (n : Nat) : Progress → Prop
  | .going e => e.best.length = n
  | .finished res => res.plans.length = n
  | .failed _ => True

namespace Enumeration

variable {c : EnumerationSetting} {e : Enumeration} {res : Result}

theorem length_result (c : EnumerationSetting) (e : Enumeration) (reason : Termination) :
    (e.result c reason).plans.length = e.best.length :=
  List.length_map ..

theorem startRound_lists (c : EnumerationSetting) (e : Enumeration) :
    (e.startRound c).Lists e.best.length := by
  rw [startRound_eq]
  cases e.search.pathTree.optimalCost? with
  | none => exact length_result ..
  | some cost => rfl

theorem continueBatch_lists (c : EnumerationSetting) (e : Enumeration) (rule : StopRule)
    (threshold : Option Int) (bounds : BatchBounds) (steps : Nat) :
    (e.continueBatch c rule threshold bounds steps).Lists e.best.length := by
  unfold Enumeration.continueBatch
  simp only
  split
  · exact startRound_lists c { e with search := e.search.leastEstimate?.2 }
  · rfl

theorem endedRound?_eq_none (h : ∀ rule paths selection frontier,
    e.phase ≠ .collecting rule paths selection frontier) : e.endedRound? = none := by
  unfold endedRound?
  cases heq : e.phase with
  | collecting rule paths selection frontier => exact absurd heq (h _ _ _ _)
  | solving => rfl
  | searching => rfl

theorem collect_lists {rule : StopRule} {paths : PathEnumeration} {selection : Selection}
    {frontier : Option Int} (hphase : e.phase = .collecting rule paths selection frontier)
    (hclock : rule.expired = false) (hnext : paths.nextCost? = paths.next?.map (·.1.cost)) :
    (e.collect c rule paths selection frontier).Lists
      ((e.endedRound?.map Round.count).getD e.best.length) := by
  unfold endedRound? Enumeration.collect
  rw [hphase]
  cases hverdict : rule.judge selection.size paths.nextCost? frontier with
  | stop reason =>
    have hreason : reason ≠ .timeout := by
      rcases StopRule.judge_stop hclock hverdict with ⟨rfl, -⟩ | ⟨rfl, -⟩ | ⟨rfl, -⟩ <;> nofun
    simp only [hreason, decide_false, Bool.false_and, Bool.false_eq_true, if_false, hverdict,
      reduceCtorEq, Option.map_some, Option.getD_some]
    exact (length_result ..).trans (Array.length_toList ..)
  | search threshold =>
    simp only [hverdict, reduceCtorEq, if_false, Option.map_some, Option.getD_some]
    exact Array.length_toList ..
  | accept =>
    simp only [hverdict, if_true, Option.map_none, Option.getD_none]
    obtain ⟨-, cost, hcost, -⟩ := StopRule.judge_accept hverdict
    cases hpath : paths.next? with
    | none =>
      rw [hnext, hpath] at hcost
      cases hcost
    | some next => rfl

theorem searchOn_lists (c : EnumerationSetting) (e : Enumeration) (rule : StopRule)
    (threshold : Option Int) (bounds : BatchBounds) (steps : Nat) :
    (e.searchOn c rule threshold bounds steps).Lists e.best.length := by
  unfold Enumeration.searchOn
  split
  · exact length_result ..
  · rcases e.search.step c.search with ⟨search, outcome⟩
    cases outcome with
    | expanded goal =>
      simp only
      split
      · exact startRound_lists c { e with search }
      · exact continueBatch_lists c { e with search } ..
    | solved cost => exact continueBatch_lists c { e with search } ..
    | exhausted => exact startRound_lists c { e with search }
    | full => exact length_result ..
    | failed fault => trivial

theorem solve_lists (c : EnumerationSetting) (e : Enumeration) :
    (e.solve c).Lists e.best.length := by
  unfold Enumeration.solve
  split
  · exact length_result ..
  · rcases e.search.step c.search with ⟨search, outcome⟩
    cases outcome with
    | expanded goal => rfl
    | solved cost => exact startRound_lists c { e with search }
    | exhausted => exact length_result ..
    | full => exact length_result ..
    | failed fault => trivial

/-- The plans are those of the round that ends, or else those from before. -/
theorem Sound.step_lists (h : e.Sound c) (hc : c.Certifying) :
    (e.step c).Lists ((e.endedRound?.map Round.count).getD e.best.length) := by
  have hphase := h.phase
  unfold PhaseSound at hphase
  unfold Enumeration.step
  cases heq : e.phase with
  | solving =>
    rw [endedRound?_eq_none (by simp [heq])]
    exact solve_lists c e
  | searching rule threshold bounds steps =>
    rw [endedRound?_eq_none (by simp [heq])]
    exact searchOn_lists c e ..
  | collecting rule paths selection frontier =>
    rw [heq] at hphase
    obtain ⟨⟨least, -, rfl⟩, hs, cs, plans, hcollected⟩ := hphase
    exact collect_lists heq hc.clock (hcollected.lists.exact hs.tree hs.priced).nextCost

/-- A result lists the plans of the last round. -/
theorem Sound.length_plans (h : e.Sound c) (hc : c.Certifying) {steps : Nat}
    (hrun : e.run c steps = some (.ok res)) : res.plans.length =
      ((e.endedRounds c steps).getLast?.map Round.count).getD e.best.length := by
  induction steps generalizing e with
  | zero => cases hrun
  | succ steps ih =>
    have hstep := h.step hc
    have hlists := h.step_lists hc
    have hlast : e.endedRound?.toList.getLast? = e.endedRound? := by cases e.endedRound? <;> rfl
    rw [run_succ] at hrun
    unfold endedRounds
    cases hprogress : e.step c with
    | going e' =>
      rw [hprogress] at hrun hstep hlists
      simp only [List.getLast?_append, hlast]
      rw [ih hstep hrun]
      cases (e'.endedRounds c steps).getLast? with
      | none => exact hlists
      | some last => rfl
    | finished res' =>
      rw [hprogress] at hrun hlists
      obtain rfl := Except.ok.inj (Option.some.inj hrun)
      simp only [List.append_nil, hlast]
      exact hlists
    | failed fault =>
      rw [hprogress] at hrun
      cases hrun

end Enumeration

/-- In an enumeration with an admissible heuristic and without a clock, a round takes at least as many plans
as any earlier one whose plans its estimates certify, and the result lists the plans of the last round. -/
theorem Task.endedRounds_pairwise {t : Task} {h : Heuristic} {r : Request} {p : Policy}
    {c : EnumerationSetting} (hset : t.enumerationSetting h r p = .ok c) (hadm : h.Admissible t)
    (hclock : r.milliseconds = none) (hreopen : p.reopen = true)
    (hprune : p.symmetry.pruneSearch = true → h.AdmissibleOnStates t)
    (hrange : ∀ s, Search.Faultless c.search s → s.graph.InRange root) {e : Enumeration}
    (hstart : Enumeration.start c = .ok e) (steps : Nat) :
    ((e.endedRounds c steps).Pairwise fun earlier later =>
      later.Certifies c earlier → earlier.count ≤ later.count) ∧
    ∀ res, e.run c steps = some (.ok res) →
      res.plans.length = ((e.endedRounds c steps).getLast?.map Round.count).getD 0 := by
  have hc := certifying_of_enumerationSetting hset hadm hclock hreopen hprune hrange
  have hsound := Enumeration.start_sound hstart
  refine ⟨(hsound.rounds_keep hc steps).2, fun res hrun => ?_⟩
  obtain ⟨s, -, rfl⟩ := Enumeration.start_eq_ok_iff.mp hstart
  exact hsound.length_plans hc hrun

/-- A direct way to a goal, and a longer one over two places. -/
def detour : Task where
  vars := #[⟨"at", ["start", "side", "behind", "goal"]⟩]
  operators := #[⟨"direct", 10, [⟨0, 0⟩], [⟨0, 3⟩]⟩, ⟨"aside", 2, [⟨0, 0⟩], [⟨0, 1⟩]⟩,
    ⟨"on", 1, [⟨0, 1⟩], [⟨0, 2⟩]⟩, ⟨"back", 9, [⟨0, 2⟩], [⟨0, 3⟩]⟩]
  initial := #[0]
  goal := [⟨0, 3⟩]
  normalized := by decide +kernel
  faultless := by decide +kernel

namespace Detour

theorem operator_cost_le (op : Nat) : (detour.operator op).cost ≤ 10 := by
  match op with
  | 0 => decide
  | 1 => decide
  | 2 => decide
  | 3 => decide
  | op + 4 =>
    rw [Task.operator, Array.getD_eq_getD_getElem?, Array.getElem?_eq_none (by simp [detour])]
    decide

variable {plan : Plan} {final : State} {cost : Int}

theorem le_cost_behind (hrun : detour.run? #[2] plan = some (final, cost))
    (hgoal : detour.isGoal final = true) : 9 ≤ cost := by
  have happlicable : detour.applicable #[2] = [3] := by decide +kernel
  cases plan with
  | nil =>
    obtain ⟨rfl, -⟩ := Prod.mk.inj (Option.some.inj hrun)
    exact absurd hgoal (by decide +kernel)
  | cons op plan =>
    obtain ⟨hop, left, hleft, rfl⟩ := Task.run?_cons_eq_some_iff.mp hrun
    obtain rfl : op = 3 := by simpa [happlicable] using hop
    have hprice : (detour.operator 3).cost = 9 := rfl
    have := Task.run?_cost_nonneg hleft
    omega

theorem le_cost_side (hrun : detour.run? #[1] plan = some (final, cost))
    (hgoal : detour.isGoal final = true) : 10 ≤ cost := by
  have happlicable : detour.applicable #[1] = [2] := by decide +kernel
  have hnext : detour.apply #[1] 2 = #[2] := by decide +kernel
  cases plan with
  | nil =>
    obtain ⟨rfl, -⟩ := Prod.mk.inj (Option.some.inj hrun)
    exact absurd hgoal (by decide +kernel)
  | cons op plan =>
    obtain ⟨hop, left, hleft, rfl⟩ := Task.run?_cons_eq_some_iff.mp hrun
    obtain rfl : op = 2 := by simpa [happlicable] using hop
    have hprice : (detour.operator 2).cost = 1 := rfl
    have := le_cost_behind (hnext ▸ hleft) hgoal
    omega

/-- The cost that is left beside the direct way, as far as a table knows it. -/
def table (behind : Int) : Heuristic :=
  .ofTable "table" (.value 0) [(#[1], .value 10), (#[2], .value behind)]

theorem table_admissibleOnStates {behind : Int} (hle : behind ≤ 9) :
    (table behind).AdmissibleOnStates detour := by
  intro plan x final cost _ hrun hgoal
  have hcost := Task.run?_cost_nonneg hrun
  by_cases hside : x = #[1]
  · subst hside
    exact ⟨10, rfl, le_cost_side hrun hgoal⟩
  · by_cases hbehind : x = #[2]
    · subst hbehind
      have := le_cost_behind hrun hgoal
      exact ⟨behind, rfl, by omega⟩
    · have hside : (x == #[1]) = false := beq_eq_false_iff_ne.mpr hside
      have hbehind : (x == #[2]) = false := beq_eq_false_iff_ne.mpr hbehind
      refine ⟨0, ?_, hcost⟩
      simp [table, Heuristic.ofTable, List.lookup_cons, hside, hbehind]

theorem table_estimate (behind : Int) (x : State) : (table behind).estimate detour x = .value 10 ∨
    (table behind).estimate detour x = .value behind ∨ (table behind).estimate detour x = .value 0 := by
  unfold table Heuristic.ofTable
  simp only [List.lookup_cons, List.lookup_nil]
  split
  · exact .inl rfl
  · split
    · exact .inr (.inl rfl)
    · exact .inr (.inr rfl)

theorem table_nonnegative {behind : Int} (hle : 0 ≤ behind) : (table behind).Nonnegative detour := by
  intro x e _ he
  rcases table_estimate behind x with heq | heq | heq <;>
    rw [heq] at he <;> obtain rfl := Estimate.value.inj he <;> omega

theorem table_deadEndsSound (behind : Int) : (table behind).DeadEndsSound detour := by
  intro plan x final cost _ _ _
  rcases table_estimate behind x with heq | heq | heq <;> rw [heq] <;> nofun

/-- The search for a plan, with the sum of the costs of all operators in range. -/
theorem inRange {c : SearchSetting} {s : Search} (htask : c.task = detour) (hc : c.Symmetric)
    (hs : Search.Faultless c s) : s.graph.InRange root := by
  have hmost : ∀ op, (c.task.operator op).cost ≤ 10 := by
    rw [htask]
    exact operator_cost_le
  refine hs.underway.1.recorded.inRange_of_states hc hmost ?_
  rw [htask]
  decide +kernel

end Detour

theorem exists_start_of_map_eq {c : EnumerationSetting} {α : Type} {f : Enumeration → α} {a : α}
    (hvalue : (Enumeration.start c).toOption.map f = some a) :
    ∃ e, Enumeration.start c = .ok e ∧ f e = a := by
  cases hstart : Enumeration.start c with
  | error fault =>
    rw [hstart] at hvalue
    cases hvalue
  | ok e =>
    rw [hstart] at hvalue
    exact ⟨e, rfl, Option.some.inj hvalue⟩

/-- With consistent estimates no round loses a plan, and the last one takes the longer way too. -/
theorem Task.endedRounds_pairwise_detour : ∃ c e res,
    detour.enumerationSetting (Detour.table 9) { count := some 2 } {} = .ok c ∧
    Enumeration.start c = .ok e ∧
    e.endedRounds c 20 = [⟨some 12, 1⟩, ⟨some 12, 1⟩, ⟨none, 2⟩] ∧
    ((e.endedRounds c 20).Pairwise fun earlier later =>
      later.Certifies c earlier → earlier.count ≤ later.count) ∧
    e.run c 20 = some (.ok res) ∧ res.plans.length = 2 := by
  have hset : detour.enumerationSetting (Detour.table 9) { count := some 2 } {} =
      .ok (.ofRequest detour (Detour.table 9) { count := some 2 } none {}) := rfl
  generalize hc : EnumerationSetting.ofRequest detour (Detour.table 9) { count := some 2 } none {} = c
    at hset
  have hvalue : (Enumeration.start c).toOption.map (fun e =>
      (e.endedRounds c 20, ((e.run c 20).bind Except.toOption).map Result.termination)) =
      some ([⟨some 12, 1⟩, ⟨some 12, 1⟩, ⟨none, 2⟩], some .planLimitReached) := by
    subst hc
    decide +kernel
  obtain ⟨e, hstart, heq⟩ := exists_start_of_map_eq hvalue
  obtain ⟨hrounds, hend⟩ := Prod.mk.inj heq
  obtain ⟨res, hrun, -⟩ := exists_ok_of_map_eq hend
  have hadm := Detour.table_admissibleOnStates (Int.le_refl 9)
  obtain ⟨hpairs, hlength⟩ := Task.endedRounds_pairwise hset hadm.admissible rfl rfl (fun _ => hadm)
    (fun s hs => Detour.inRange (by rw [← hc]; rfl) (hc ▸ symmetric_ofRequest none fun _ => hadm) hs)
    hstart 20
  refine ⟨c, e, res, hset, hstart, hrounds, hpairs, hrun, ?_⟩
  rw [hlength res hrun, hrounds]
  rfl

/-- Estimates that are admissible but not consistent: the least estimate falls from the side to the place
behind it, and the next round loses the plan of the round before. The enumeration then ends without it. -/
theorem Task.endedRounds_lose_plan : ∃ c e res,
    detour.enumerationSetting (Detour.table 0) { count := some 2 } { stateLimit := some 4 } = .ok c ∧
    (Detour.table 0).AdmissibleOnStates detour ∧ (Detour.table 0).Nonnegative detour ∧
    (Detour.table 0).DeadEndsSound detour ∧ c.search.reopen = true ∧
    Enumeration.start c = .ok e ∧ e.endedRounds c 20 = [⟨some 12, 1⟩, ⟨some 3, 0⟩] ∧
    e.run c 20 = some (.ok res) ∧ res.termination = .resourceExhausted ∧ res.plans = [] := by
  have hset : detour.enumerationSetting (Detour.table 0) { count := some 2 } { stateLimit := some 4 } =
      .ok (.ofRequest detour (Detour.table 0) { count := some 2 } none { stateLimit := some 4 }) := rfl
  have hvalue : (Enumeration.start (.ofRequest detour (Detour.table 0) { count := some 2 } none
      { stateLimit := some 4 })).toOption.map (fun e =>
      (e.endedRounds (.ofRequest detour (Detour.table 0) { count := some 2 } none
        { stateLimit := some 4 }) 20,
      ((e.run (.ofRequest detour (Detour.table 0) { count := some 2 } none { stateLimit := some 4 })
        20).bind Except.toOption).map fun res => (res.termination, res.plans))) =
      some ([⟨some 12, 1⟩, ⟨some 3, 0⟩], some (.resourceExhausted, [])) := by
    decide +kernel
  obtain ⟨e, hstart, heq⟩ := exists_start_of_map_eq hvalue
  obtain ⟨hrounds, hend⟩ := Prod.mk.inj heq
  obtain ⟨res, hrun, hres⟩ := exists_ok_of_map_eq hend
  obtain ⟨hreason, hplans⟩ := Prod.mk.inj hres
  have hadm : (Detour.table 0).AdmissibleOnStates detour := Detour.table_admissibleOnStates (by decide)
  exact ⟨_, e, res, hset, hadm, Detour.table_nonnegative (Int.le_refl 0), Detour.table_deadEndsSound 0,
    rfl, hstart, hrounds, hrun, hreason, hplans⟩

end RankedPlans
