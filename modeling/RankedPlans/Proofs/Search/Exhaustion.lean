import RankedPlans.Proofs.Search.Descent

/-! What the end of a search says. When no node waits any more, every plan has been followed to the sink,
so without the sink there is no plan; when the sink is taken there is one. A search fails only for an
estimate below zero. -/

namespace RankedPlans.Search

variable {c : SearchSetting} {s s' : Search} {v : Nat} {x : State} {cost : Int}
  {fault : NegativeEstimate}

section Faults

/-- The record holds a state whose estimate is below zero. -/
def Flawed (c : SearchSetting) (s : Search) : Prop :=
  ∃ v x h, s.stateOf? v = some x ∧ c.heuristic.estimate c.task x = .value h ∧ h < 0

theorem Flawed.grows (h : Flawed c s) (hg : Grows s s') : Flawed c s' := by
  obtain ⟨v, x, e, hx, he⟩ := h
  exact ⟨v, x, e, hg.state hx, he⟩

theorem open?_fault {via : Option Nat} (h : (s.open? c v cost via).2 = some fault) : Flawed c s := by
  rcases open?_cases c s v cost via with ⟨k, e, heq, -⟩ | ⟨k, x, heq, -⟩ |
    ⟨k, fault, x, e, -, hx, he⟩
  · rw [heq] at h
    cases h
  · rw [heq] at h
    cases h
  · exact ⟨v, x, e, hx, he⟩

theorem relax_fault {via : Nat} (h : (s.relax c v cost via).2 = some fault) : Flawed c s := by
  rcases relax_cases c s v cost via with ⟨heq, -⟩ | ⟨k, heq, -⟩ | ⟨-, heq⟩
  · rw [heq] at h
    cases h
  · rw [heq] at h
    cases h
  · rw [heq] at h
    exact open?_fault h

theorem relaxAgain_fault {es : List Nat} (h : (relaxAgain c cost es s).2 = some fault) :
    Flawed c (relaxAgain c cost es s).1 := by
  induction es generalizing s with
  | nil => cases h
  | cons e es ih =>
    unfold relaxAgain at h ⊢
    cases he : s.edges[e]? with
    | none =>
      rw [he] at h
      exact ih h
    | some edge =>
      have hsame := SameRecord.relax c s edge.target (Cost.add cost edge.cost) e
      have hfault : (s.relax c edge.target (Cost.add cost edge.cost) e).2 = some fault → Flawed c s :=
        relax_fault
      simp only [he] at h ⊢
      rcases hr : s.relax c edge.target (Cost.add cost edge.cost) e with ⟨s₁, fault'⟩
      rw [hr] at h hsame hfault
      cases fault' with
      | none => exact ih h
      | some fault' => exact (hfault h).grows hsame.grows

theorem Generating.flawed {ops : List Nat} {goal : Bool} (h : Generating c v x ops s)
    (hr : (Search.generate c v cost x ops s goal).2.2 = some fault) :
    Flawed c (Search.generate c v cost x ops s goal).1 := by
  induction ops generalizing s goal with
  | nil => cases hr
  | cons op ops ih =>
    obtain ⟨goal', heq⟩ := generate_cons c v cost x op ops s goal
    obtain ⟨hnext, -⟩ := h.step (Cost.add cost (c.task.operator op).cost)
    rw [heq] at hr ⊢
    generalize Search.successor c v x s op = r at hnext hr ⊢
    obtain ⟨s₁, target, e⟩ := r
    have hsame := SameRecord.relax c s₁ target (Cost.add cost (c.task.operator op).cost) e
    have hfault : (s₁.relax c target (Cost.add cost (c.task.operator op).cost) e).2 = some fault →
        Flawed c s₁ := relax_fault
    rcases hrelax : s₁.relax c target (Cost.add cost (c.task.operator op).cost) e with ⟨s₂, fault'⟩
    simp only [hrelax] at hr hnext hsame hfault ⊢
    cases fault' with
    | none => exact ih hnext hr
    | some fault' => exact (hfault hr).grows hsame.grows

theorem expand_fault (h : Recorded c s) (hr : (s.expand c v cost).2 = .failed fault) :
    Flawed c (s.expand c v cost).1 := by
  by_cases hexp : (s.node v).expanded = true
  · have hflawed : (relaxAgain c cost (s.graph.outgoing v) s).2 = some fault →
        Flawed c (relaxAgain c cost (s.graph.outgoing v) s).1 := relaxAgain_fault
    unfold expand at hr ⊢
    rw [if_pos hexp] at hr ⊢
    rcases hagain : relaxAgain c cost (s.graph.outgoing v) s with ⟨s', fault'⟩
    rw [hagain] at hr hflawed
    cases fault' with
    | none => cases hr
    | some fault' => exact hflawed (congrArg some (StepOutcome.failed.inj hr))
  · cases hx : s.stateOf? v with
    | none =>
      rw [expand_stateless hexp hx] at hr
      cases hr
    | some x =>
      have hflawed : (generate c v cost x (c.task.applicable x) (s.markExpanded v) false).2.2 =
          some fault → Flawed c (generate c v cost x (c.task.applicable x) (s.markExpanded v) false).1 :=
        (h.generating hexp hx).flawed
      rw [expand_new hexp hx] at hr ⊢
      rcases hgen : generate c v cost x (c.task.applicable x) (s.markExpanded v) false with
        ⟨s₁, goal, fault'⟩
      rw [hgen] at hr hflawed
      cases fault' with
      | some fault' => exact hflawed (congrArg some (StepOutcome.failed.inj hr))
      | none =>
        simp only at hr ⊢
        split at hr
        · rename_i hgoal
          have hsame := SameRecord.relax c (s₁.record ⟨v, sink, .goal, 0⟩).1 sink cost s₁.edges.size
          have hfault : ((s₁.record ⟨v, sink, .goal, 0⟩).1.relax c sink cost s₁.edges.size).2 =
              some fault → Flawed c (s₁.record ⟨v, sink, .goal, 0⟩).1 := relax_fault
          rw [if_pos hgoal]
          change (s₁.record ⟨v, sink, .goal, 0⟩).1.SameRecord (recordGoal c v cost s₁).1 at hsame
          change (recordGoal c v cost s₁).2 = some fault → _ at hfault
          rcases hrecord : recordGoal c v cost s₁ with ⟨s₂, fault'⟩
          rw [hrecord] at hr hsame hfault
          cases fault' with
          | none => cases hr
          | some fault' =>
            exact (hfault (congrArg some (StepOutcome.failed.inj hr))).grows hsame.grows
        · cases hr

theorem Underway.step_fault (h : Underway c s [] none) (hr : (s.step c).2 = .failed fault) :
    Flawed c (s.step c).1 := by
  rcases h.step_cases with ⟨-, heq⟩ | ⟨o, -, -, heq⟩ | ⟨v, o, hv, ⟨-, heq⟩ | ⟨-, heq⟩⟩
  · rw [heq] at hr
    cases hr
  · rw [heq] at hr
    cases hr
  · rw [heq] at hr
    cases hr
  · rw [heq] at hr ⊢
    exact expand_fault ((hv.sameRecord _).recorded h.recorded) hr

/-- No step fails if no estimate is below zero. -/
theorem Underway.step_ne_failed (h : Underway c s [] none) (hc : c.Grouped)
    (hpos : c.heuristic.Nonnegative c.task) (fault : NegativeEstimate) :
    (s.step c).2 ≠ .failed fault := by
  intro hr
  obtain ⟨v, x, e, hx, he, hneg⟩ := h.step_fault hr
  have := hpos ((step_recorded h.recorded).1.isState hc hx) he
  omega

theorem Underway.step_ne_full (h : Underway c s [] none) (hlimit : c.stateLimit = none) :
    (s.step c).2 ≠ .full := by
  rcases h.step_cases with ⟨hfull, -⟩ | ⟨o, -, -, heq⟩ | ⟨v, o, -, ⟨-, heq⟩ | ⟨-, heq⟩⟩
  · rw [hlimit] at hfull
    cases hfull
  · rw [heq]
    nofun
  · rw [heq]
    nofun
  · rcases expand_outcome (c := c) ((s.take v o).count fun k => { k with expanded := k.expanded + 1 })
      v (s.node v).cost with ⟨goal, hgoal⟩ | ⟨fault, hfault⟩
    · rw [heq, hgoal]
      nofun
    · rw [heq, hfault]
      nofun

theorem exists_start (hc : c.Grouped) (hpos : c.heuristic.Nonnegative c.task) :
    ∃ s, start c = .ok s := by
  rcases hr : (seed c).open? c root 0 none with ⟨s, fault⟩
  cases fault with
  | none => exact ⟨s, start_eq_ok_iff.mpr hr⟩
  | some fault =>
    obtain ⟨v, x, e, hx, he, hneg⟩ := open?_fault (congrArg Prod.snd hr)
    have := hpos ((seed_recorded c).isState hc hx) he
    omega

end Faults

section Completeness

variable {r : State → Nat → (List Nat → Plan) → Prop} {read : List Nat → Plan} {plan : Plan}
  {final : State}

/-- Of a plan that is left, each state is no dead end, so its node is closed if none waits. -/
theorem Simulates.closed (hr : Simulates c s r) (h : Underway c s [] none) (hc : c.Grouped)
    (hdead : c.heuristic.DeadEndsSound c.task) (hidle : ∀ w, (s.node w).status ≠ .waiting)
    (hv : r x v read) (hrun : c.task.run? x plan = some (final, cost))
    (hgoal : c.task.isGoal final = true) (hseen : (s.node v).status ≠ .unseen) :
    (s.node v).status = .closed := by
  obtain ⟨y, hy, himage⟩ := hr.state hv
  obtain ⟨image, final', hrun', hgoal'⟩ := himage plan final cost hrun hgoal
  have hlive := hdead (h.recorded.isState hc hy) hrun' hgoal'
  exact (met_of_seen hseen fun hstatus => hlive (h.deadEnd hy hstatus)).resolve_left (hidle v)

/-- When no node waits, every plan has been followed to the sink. -/
theorem Simulates.sink_closed (hr : Simulates c s r) (h : Underway c s [] none) (hc : c.Grouped)
    (hdead : c.heuristic.DeadEndsSound c.task) (hidle : ∀ w, (s.node w).status ≠ .waiting)
    (hv : r x v read) (hrun : c.task.run? x plan = some (final, cost))
    (hgoal : c.task.isGoal final = true) (hseen : (s.node v).status ≠ .unseen) :
    (s.node sink).status = .closed := by
  -- The induction is on the plan: the node of each of its states is closed.
  induction plan generalizing x v cost read with
  | nil =>
    have hclosed := hr.closed h hc hdead hidle hv hrun hgoal hseen
    obtain ⟨rfl, -⟩ := Prod.mk.inj (Option.some.inj hrun)
    obtain ⟨e, edge, he, rfl, -, htarget, -⟩ := hr.goal hv hclosed hgoal
    obtain ⟨hsink, -⟩ := h.tried he List.not_mem_nil hclosed
    rw [htarget] at hsink
    exact (met_of_seen hsink h.sink_alive).resolve_left (hidle sink)
  | cons op plan ih =>
    have hclosed := hr.closed h hc hdead hidle hv hrun hgoal hseen
    obtain ⟨hop, left, hleft, -⟩ := Task.run?_cons_eq_some_iff.mp hrun
    obtain ⟨e, edge, rest, he, rfl, -, hnext, -⟩ := hr.operator hv hclosed hop
    exact ih hnext hleft (h.tried he List.not_mem_nil hclosed).1

/-- An open list without a waiting node, while the sink was never taken, leaves no plan. -/
theorem Underway.planCost?_eq_none (h : Underway c s [] none) (hroot : (s.node root).status ≠ .unseen)
    (hc : c.Grouped) (hdead : c.heuristic.DeadEndsSound c.task)
    (hsink : (s.node sink).status ≠ .closed) (hidle : ∀ w, (s.node w).status ≠ .waiting)
    (plan : Plan) : c.task.planCost? plan = none := by
  cases hplan : c.task.planCost? plan with
  | none => rfl
  | some cost =>
    obtain ⟨final, hrun, hgoal⟩ := Task.planCost?_eq_some_iff.mp hplan
    refine absurd ?_ hsink
    cases hgroup : c.group with
    | none =>
      have hstate := h.recorded.initial_state hgroup
      exact (h.simulates_states hgroup).sink_closed h hc hdead hidle ⟨hstate, ⟨[], 0, rfl⟩, rfl⟩ hrun
        hgoal hroot
    | some g =>
      exact (Follows.simulates h hgroup (hc g hgroup)).sink_closed h hc hdead hidle
        ⟨_, Follows.start h.recorded hgroup, rfl⟩ hrun hgoal hroot

/-- When a search is exhausted, no estimate is left. -/
theorem Underway.leastEstimate?_of_exhausted (h : Underway c s [] none)
    (hr : (s.step c).2 = .exhausted) : (s.step c).1.leastEstimate?.1 = none := by
  rcases h.step_cases with ⟨-, heq⟩ | ⟨o, ho, hstale, heq⟩ | ⟨v, o, -, ⟨-, heq⟩ | ⟨-, heq⟩⟩
  · rw [heq] at hr
    cases hr
  · rw [heq]
    exact OpenList.least?_eq_none ho.valid fun x hx => hstale x (ho.subset x hx)
  · rw [heq] at hr
    cases hr
  · rw [heq] at hr
    exact absurd hr (expand_ne_exhausted _ _ _)

theorem Underway.planCost?_of_exhausted (h : Underway c s [] none)
    (hroot : (s.node root).status ≠ .unseen) (hc : c.Grouped)
    (hdead : c.heuristic.DeadEndsSound c.task) (hsink : (s.node sink).status ≠ .closed)
    (hr : (s.step c).2 = .exhausted) (plan : Plan) : c.task.planCost? plan = none := by
  rcases h.step_cases with ⟨-, heq⟩ | ⟨o, -, hstale, -⟩ | ⟨v, o, -, ⟨-, heq⟩ | ⟨-, heq⟩⟩
  · rw [heq] at hr
    cases hr
  · exact h.planCost?_eq_none hroot hc hdead hsink (h.not_waiting hstale) plan
  · rw [heq] at hr
    cases hr
  · rw [heq] at hr
    exact absurd hr (expand_ne_exhausted _ _ _)

end Completeness

section Sink

/-- Only a step that says so takes the sink. -/
theorem Underway.sink_step (h : Underway c s [] none) (hsink : (s.node sink).status ≠ .closed)
    (hr : ∀ cost, (s.step c).2 ≠ .solved cost) : ((s.step c).1.node sink).status ≠ .closed := by
  rcases h.step_cases with ⟨-, heq⟩ | ⟨o, -, -, heq⟩ | ⟨v, o, hv, ⟨-, heq⟩ | ⟨hne, heq⟩⟩
  · rw [heq]
    exact hsink
  · rw [heq]
    exact hsink
  · exact absurd (congrArg Prod.snd heq) (hr _)
  · rw [heq]
    intro hclosed
    have hmet : s.Met v := .inl hv.waiting
    have hbefore := (descends_expand ((hv.sameRecord _).recorded h.recorded) v (h.cost_nonneg hmet)
      (h.cost_le_top hmet) sink).closed hclosed
    rw [hv.node_take_ne (Ne.symm hne)] at hbefore
    exact hsink hbefore.1

theorem sink_start (h : start c = .ok s) : (s.node sink).status = .unseen := by
  rcases open?_cases c (seed c) root 0 none with ⟨k, e, heq, -⟩ | ⟨k, x, heq, -⟩ |
    ⟨k, fault, x, e, heq, -⟩
  · obtain ⟨rfl, -⟩ := Prod.mk.inj ((start_eq_ok_iff.mp h).symm.trans heq)
    rfl
  · obtain ⟨rfl, -⟩ := Prod.mk.inj ((start_eq_ok_iff.mp h).symm.trans heq)
    rfl
  · cases (start_eq_ok_iff.mp h).symm.trans heq

/-- When the sink is taken, a walk to it is recorded. -/
theorem Underway.exists_walk_of_solved (h : Underway c s [] none) (hr : (s.step c).2 = .solved cost) :
    ∃ es, (s.step c).1.graph.Walk root es sink := by
  obtain ⟨hwaits, -⟩ := h.sink_of_solved hr
  obtain ⟨es, hes, -⟩ := h.walk (.inl hwaits)
  have hgrows : ∀ {e edge}, s.graph.edges[e]? = some edge →
      (s.step c).1.graph.edges[e]? = some edge := (step_recorded h.recorded).2.edge
  exact ⟨es, (hes.mono hgrows).1⟩

end Sink

end RankedPlans.Search
