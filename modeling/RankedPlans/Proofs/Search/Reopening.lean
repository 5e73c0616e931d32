import RankedPlans.Proofs.Search.Finality

/-! Opening closed nodes again. Under consistent estimates no edge offers a closed node less than it has, so a
search that may open closed nodes again takes the same steps as one that may not. -/

namespace RankedPlans

/-- The same search, in which closed nodes may or may not be opened again. -/
def SearchSetting.reopening (c : SearchSetting) (b : Bool) : SearchSetting :=
  { c with reopen := b }

namespace Search

variable {c : SearchSetting} {s s' s'' : Search} {v w : Nat} {x : State} {cost price : Int}

/-- A node waits at the cost that an operator offers it out of a state of a known cost. -/
structure Offered (c : SearchSetting) (x : State) (cost : Int) (s : Search) (w : Nat) : Prop where
  waiting : (s.node w).status = .waiting
  offer : ∃ op ∈ c.task.applicable x, s.stateOf? w = some (c.task.apply x op) ∧
    (s.node w).cost = Cost.add cost (c.task.operator op).cost

/-- What the edges out of a state do to the nodes other than the sink: a node stays as it is, or it was not
closed and is a dead end now or waits at an offered cost. -/
structure Quiet (c : SearchSetting) (x : State) (cost : Int) (s s' : Search) : Prop where
  node : ∀ w, w ≠ sink → s'.node w = s.node w ∨ (s.node w).status ≠ .closed ∧
    (s'.node w).expanded = (s.node w).expanded ∧
    ((s'.node w).status = .deadEnd ∨ Offered c x cost s' w)
  reopened : s'.statistics.reopened = s.statistics.reopened

/-- No operator offers a closed node less than it has. -/
def Sheltered (c : SearchSetting) (x : State) (cost : Int) (s : Search) : Prop :=
  ∀ ⦃w op : Nat⦄, op ∈ c.task.applicable x → s.stateOf? w = some (c.task.apply x op) →
    (s.node w).status = .closed → (s.node w).cost ≤ Cost.add cost (c.task.operator op).cost

namespace Quiet

theorem of_node (hnode : ∀ w, s'.node w = s.node w)
    (hreopened : s'.statistics.reopened = s.statistics.reopened) : Quiet c x cost s s' :=
  ⟨fun w _ => .inl (hnode w), hreopened⟩

theorem trans (h : Quiet c x cost s s') (h' : Quiet c x cost s' s'') (hg : Grows s' s'') :
    Quiet c x cost s s'' := by
  refine ⟨fun w hw => ?_, h'.reopened.trans h.reopened⟩
  rcases h'.node w hw with heq | ⟨hopen, hexp, hnew⟩
  · rcases h.node w hw with heq' | ⟨hopen', hexp', hnew'⟩
    · exact .inl (heq.trans heq')
    · rw [heq]
      refine .inr ⟨hopen', hexp', hnew'.imp id ?_⟩
      rintro ⟨hwaiting, op, hop, hstate, hcost⟩
      exact ⟨heq ▸ hwaiting, op, hop, hg.state hstate, heq ▸ hcost⟩
  · rcases h.node w hw with heq' | ⟨hopen', hexp', -⟩
    · exact .inr ⟨heq' ▸ hopen, heq' ▸ hexp, hnew⟩
    · exact .inr ⟨hopen', hexp.trans hexp', hnew⟩

theorem node_of_closed (h : Quiet c x cost s s') (hw : w ≠ sink)
    (hclosed : (s'.node w).status = .closed) : s'.node w = s.node w := by
  rcases h.node w hw with heq | ⟨-, -, hdead | hoffered⟩
  · exact heq
  · cases hclosed.symm.trans hdead
  · cases hclosed.symm.trans hoffered.waiting

end Quiet

theorem Sheltered.quiet (h : Sheltered c x cost s) (hq : Quiet c x cost s s') (hs : Recorded c s)
    (hg : Grows s s') : Sheltered c x cost s' := by
  intro w op hop hstate hclosed
  have heq := hq.node_of_closed (ne_sink_of_stateOf? hstate) hclosed
  rw [heq] at hclosed ⊢
  exact h hop (hs.state_of_seen hg (by simp [hclosed]) hstate) hclosed

section Open

variable {via : Option Nat}

/-- What becomes of a node that is met. -/
theorem open?_node_self (hv : v < s.nodes.size) : (s.open? c v price via).1.node v = s.node v ∨
    ((s.open? c v price via).1.node v).expanded = (s.node v).expanded ∧
    (((s.open? c v price via).1.node v).status = .deadEnd ∨
      ((s.open? c v price via).1.node v).status = .waiting ∧
      ((s.open? c v price via).1.node v).cost = price) := by
  rcases open?_cases c s v price via with ⟨k, e, heq, -⟩ | ⟨k, y, heq, -⟩ | ⟨k, fault, -, -, heq, -⟩
  · rw [heq, enqueue_eq, node_set_self hv]
    exact .inr ⟨rfl, .inr ⟨rfl, rfl⟩⟩
  · rw [heq, node_set_self hv]
    exact .inr ⟨rfl, .inl rfl⟩
  · rw [heq]
    exact .inl rfl

theorem open?_reopened (c : SearchSetting) (s : Search) (v : Nat) (price : Int) (via : Option Nat) :
    (s.open? c v price via).1.statistics.reopened = s.statistics.reopened := by
  unfold open?
  cases s.stateOf? v with
  | none => rfl
  | some x =>
    simp only
    cases c.heuristic.estimate c.task x with
    | deadEnd => rfl
    | value e =>
      simp only
      split <;> rfl

end Open

section Relax

variable {via : Nat}

/-- A closed node to which no less is offered stays as it is. -/
theorem relax_closed (c : SearchSetting) (hclosed : (s.node v).status = .closed)
    (hkept : v ≠ sink → (s.node v).cost ≤ price) : s.relax c v price via = (s, none) := by
  rcases relax_cases c s v price via with
    ⟨heq, -⟩ | ⟨k, -, hlt, hwaiting | ⟨-, -, hne⟩⟩ | ⟨hunseen, -⟩
  · exact heq
  · cases hclosed.symm.trans hwaiting
  · have := hkept hne
    omega
  · cases hclosed.symm.trans hunseen

/-- Whether closed nodes may be opened again makes no difference unless an edge offers one of them less. -/
theorem relax_reopening (hkept : (s.node v).status = .closed → v ≠ sink → (s.node v).cost ≤ price)
    (b : Bool) : s.relax (c.reopening b) v price via = s.relax c v price via := by
  cases hstatus : (s.node v).status with
  | closed => rw [relax_closed _ hstatus (hkept hstatus), relax_closed _ hstatus (hkept hstatus)]
  | unseen =>
    simp only [relax, hstatus]
    rfl
  | waiting => simp only [relax, hstatus]
  | deadEnd => simp only [relax, hstatus]

theorem relax_reopened (hkept : (s.node v).status = .closed → v ≠ sink → (s.node v).cost ≤ price) :
    (s.relax c v price via).1.statistics.reopened = s.statistics.reopened := by
  cases hstatus : (s.node v).status with
  | closed => rw [relax_closed _ hstatus (hkept hstatus)]
  | unseen =>
    simp only [relax, hstatus]
    exact open?_reopened ..
  | waiting =>
    simp only [relax, hstatus]
    split <;> rfl
  | deadEnd => simp only [relax, hstatus]

/-- What becomes of the target of an edge. -/
theorem relax_node_self (hv : v < s.nodes.size)
    (hkept : (s.node v).status = .closed → v ≠ sink → (s.node v).cost ≤ price) (hsink : v ≠ sink) :
    (s.relax c v price via).1.node v = s.node v ∨ (s.node v).status ≠ .closed ∧
      ((s.relax c v price via).1.node v).expanded = (s.node v).expanded ∧
      (((s.relax c v price via).1.node v).status = .deadEnd ∨
        ((s.relax c v price via).1.node v).status = .waiting ∧
        ((s.relax c v price via).1.node v).cost = price) := by
  rcases relax_cases c s v price via with ⟨heq, -⟩ | ⟨k, heq, hlt, hstatus⟩ | ⟨hstatus, heq⟩
  · exact .inl (by rw [heq])
  · have hopen : (s.node v).status ≠ .closed := by
      intro hclosed
      have := hkept hclosed hsink
      omega
    rw [heq, enqueue_eq, node_set_self hv]
    exact .inr ⟨hopen, rfl, .inr ⟨rfl, rfl⟩⟩
  · have hopen : (s.node v).status ≠ .closed := by simp [hstatus]
    rw [heq]
    exact (open?_node_self hv).imp id fun hnew => ⟨hopen, hnew⟩

/-- The edge of an operator offers its target a cost. -/
theorem Sheltered.relax {op : Nat} (h : Sheltered c x cost s) (hs : Recorded c s)
    (hop : op ∈ c.task.applicable x) (hv : s.stateOf? v = some (c.task.apply x op)) (e : Nat) :
    (∀ b, s.relax (c.reopening b) v (Cost.add cost (c.task.operator op).cost) e =
      s.relax c v (Cost.add cost (c.task.operator op).cost) e) ∧
    Quiet c x cost s (s.relax c v (Cost.add cost (c.task.operator op).cost) e).1 := by
  have hkept := fun hclosed (_ : v ≠ sink) => h hop hv hclosed
  refine ⟨relax_reopening hkept, fun w hw => ?_, relax_reopened hkept⟩
  by_cases hwv : w = v
  · subst hwv
    refine (relax_node_self (lt_nodes_of_stateOf? hs.size_eq hv) hkept hw).imp id ?_
    rintro ⟨hopen, hexp, hnew⟩
    refine ⟨hopen, hexp, hnew.imp id fun ⟨hwaiting, hcost⟩ => ⟨hwaiting, op, hop, ?_, hcost⟩⟩
    exact (SameRecord.relax c s w _ e).grows.state hv
  · exact .inl (relax_node_ne hwv)

end Relax

section Expand

theorem intern_statistics (s : Search) (y : State) : (s.intern y).1.statistics = s.statistics := by
  simp only [intern]
  rcases s.table.insert y with ⟨table, i, - | -⟩ <;> rfl

theorem successor_reopened (c : SearchSetting) (v : Nat) (x : State) (s : Search) (op : Nat) :
    (successor c v x s op).1.statistics.reopened = s.statistics.reopened := by
  unfold successor
  simp only [record, intern_statistics]
  split <;> rfl

/-- What an operator leads to has its node. -/
theorem Generating.successor_state {op : Nat} {ops : List Nat} (h : Generating c v x (op :: ops) s)
    (hgroup : c.group = none) : (Search.successor c v x s op).1.stateOf?
      (Search.successor c v x s op).2.1 = some (c.task.apply x op) := by
  obtain ⟨hs, hg, -, -, hedge⟩ := h.successor
  obtain ⟨y, hy, -, -, htarget⟩ := hs.meant ((hedge _ _).mpr (.inr ⟨rfl, rfl⟩))
  obtain rfl := Option.some.inj ((hg.state h.state).symm.trans hy)
  rw [htarget, canonical_of_none hgroup]

/-- The edge of an operator comes first, whether closed nodes are reopened or not. -/
theorem generate_reopening_cons (c : SearchSetting) (v : Nat) (cost : Int) (x : State) (op : Nat) (ops : List Nat)
    (s : Search) (goal : Bool) : ∃ goal', ∀ b, Search.generate (c.reopening b) v cost x (op :: ops) s goal =
      match (Search.successor c v x s op).1.relax (c.reopening b) (Search.successor c v x s op).2.1
        (Cost.add cost (c.task.operator op).cost) (Search.successor c v x s op).2.2 with
      | (s, some fault) => (s, goal', some fault)
      | (s, none) => Search.generate (c.reopening b) v cost x ops s goal' :=
  ⟨goal || (Search.successor c v x s op).1.isGoalNode c (Search.successor c v x s op).2.1, fun _ => rfl⟩

/-- The edges of some operators are recorded and tried alike. -/
theorem Generating.quiet {ops : List Nat} (h : Generating c v x ops s) (hgroup : c.group = none)
    (hs : Sheltered c x cost s) (goal : Bool) :
    (∀ b, Search.generate (c.reopening b) v cost x ops s goal = Search.generate c v cost x ops s goal) ∧
    Quiet c x cost s (Search.generate c v cost x ops s goal).1 := by
  -- The induction is on the operators: an edge lets closed nodes be, so those after it offer them no less.
  induction ops generalizing s goal with
  | nil => exact ⟨fun _ => rfl, .of_node (fun _ => rfl) rfl⟩
  | cons op ops ih =>
    obtain ⟨goal', heq⟩ := generate_reopening_cons c v cost x op ops s goal
    have hself := heq c.reopen
    have hstate := h.successor_state hgroup
    have hop := h.applicable op (List.mem_cons_self ..)
    have hreopened := successor_reopened c v x s op
    obtain ⟨hrecorded, hg, -, hnode, -⟩ := h.successor
    obtain ⟨hnext, -⟩ := h.step (Cost.add cost (c.task.operator op).cost)
    change Search.generate c v cost x (op :: ops) s goal = _ at hself
    rw [hself]
    simp only [heq]
    generalize Search.successor c v x s op = r at hrecorded hg hnode hnext hreopened hstate
    obtain ⟨s₁, target, e⟩ := r
    have hquiet : Quiet c x cost s s₁ := .of_node hnode hreopened
    have hs₁ := hs.quiet hquiet h.recorded hg
    have hsame := SameRecord.relax c s₁ target (Cost.add cost (c.task.operator op).cost) e
    obtain ⟨hrelax, hquiet'⟩ := hs₁.relax hrecorded hop hstate e
    simp only [hrelax]
    have hquiet := hquiet.trans hquiet' hsame.grows
    rcases hr : s₁.relax c target (Cost.add cost (c.task.operator op).cost) e with ⟨s₂, fault⟩
    simp only [hr] at hnext hquiet hsame
    cases fault with
    | some fault => exact ⟨fun _ => rfl, hquiet⟩
    | none =>
      have hgrows := hg.trans hsame.grows
      obtain ⟨hrest, hquiet₂⟩ := ih hnext (hs.quiet hquiet h.recorded hgrows) goal'
      exact ⟨hrest, hquiet.trans hquiet₂ (hnext.generate cost goal').2.1⟩

/-- The edge of a goal to the sink is no matter to the other nodes. -/
theorem recordGoal_quiet (c : SearchSetting) (x : State) (v : Nat) (cost : Int) (s : Search) :
    (∀ b, recordGoal (c.reopening b) v cost s = recordGoal c v cost s) ∧
    Quiet c x cost s (recordGoal c v cost s).1 ∧ Grows s (recordGoal c v cost s).1 := by
  have hsame := SameRecord.relax c (s.record ⟨v, sink, .goal, 0⟩).1 sink cost s.edges.size
  refine ⟨relax_reopening fun _ hne => absurd rfl hne, ⟨fun w hw => .inl ?_, ?_⟩,
    (grows_record s _).trans hsame.grows⟩
  · exact relax_node_ne (s := (s.record ⟨v, sink, .goal, 0⟩).1) hw
  · exact relax_reopened (s := (s.record ⟨v, sink, .goal, 0⟩).1) fun _ hne => absurd rfl hne

theorem expand_reopening (c : SearchSetting) (cost : Int) (b : Bool) (hexp : ¬(s.node v).expanded = true)
    (hx : s.stateOf? v = some x) :
    s.expand (c.reopening b) v cost =
      match generate (c.reopening b) v cost x (c.task.applicable x) (s.markExpanded v) false with
      | (s, _, some fault) => (s, .failed fault)
      | (s, goal, none) =>
        if c.task.isGoal x then
          match recordGoal (c.reopening b) v cost s with
          | (s, some fault) => (s, .failed fault)
          | (s, none) => (s, .expanded true)
        else (s, .expanded goal) :=
  expand_new hexp hx

/-- A node that is expanded for the first time lets all closed nodes be. -/
theorem Recorded.expand_quiet (h : Recorded c s) (hgroup : c.group = none)
    (hexp : ¬(s.node v).expanded = true) (hx : s.stateOf? v = some x)
    (hs : Sheltered c x cost (s.markExpanded v)) :
    (∀ b, s.expand (c.reopening b) v cost = s.expand c v cost) ∧
    Quiet c x cost (s.markExpanded v) (s.expand c v cost).1 ∧
    Grows (s.markExpanded v) (s.expand c v cost).1 := by
  have hgen := h.generating hexp hx
  obtain ⟨hsame, hquiet⟩ := hgen.quiet hgroup hs false
  have hgrows := (hgen.generate cost false).2.1
  have heq b := expand_reopening c cost b hexp hx
  simp only [hsame, (recordGoal_quiet c x v cost _).1] at heq
  refine ⟨fun b => (heq b).trans (heq c.reopen).symm, ?_⟩
  rcases expand_new_state cost hexp hx with hstate | hstate
  · rw [hstate]
    exact ⟨hquiet, hgrows⟩
  · obtain ⟨-, hquiet', hgrows'⟩ := recordGoal_quiet c x v cost
      (generate c v cost x (c.task.applicable x) (s.markExpanded v) false).1
    rw [hstate]
    exact ⟨hquiet.trans hquiet' hgrows', hgrows.trans hgrows'⟩

end Expand

namespace Taken

variable {o : OpenList}

theorem lt_nodes (h : Taken s v o) : v < s.nodes.size :=
  lt_nodes_of_status (by simp [h.waiting])

theorem sameRecord_mark (h : Taken s v o) (f : Statistics → Statistics) :
    SameRecord s (((s.take v o).count f).markExpanded v) :=
  (h.sameRecord f).trans (markExpanded_spec ((h.sameRecord f).size ▸ h.lt_nodes)).1

theorem node_mark (h : Taken s v o) (f : Statistics → Statistics) :
    (((s.take v o).count f).markExpanded v).node v =
      { s.node v with status := .closed, expanded := true } := by
  rw [markExpanded, node_set_self ((h.sameRecord f).size ▸ h.lt_nodes), h.node_take]

theorem node_mark_ne (h : Taken s v o) (hw : w ≠ v) (f : Statistics → Statistics) :
    (((s.take v o).count f).markExpanded v).node w = s.node w := by
  rw [markExpanded, node_set_ne hw, h.node_take_ne hw]

end Taken

/-- The sum of cost and estimate of the node that the next step expands; none if it expands no node. -/
def nextEstimate? (c : SearchSetting) (s : Search) : Option Int :=
  if c.stateLimit.any (· ≤ s.table.size) then none
  else
    match (s.frontier.pop? s.isCurrent).1 with
    | none => none
    | some (v, _) => if v = sink then none else some (Cost.add (s.node v).cost (s.node v).estimate)

/-- What a step does whether closed nodes may be opened again or not, up to the edges that it tries. -/
theorem Underway.step_alike (h : Underway c s [] none) :
    (s.nextEstimate? c = none ∧ ∃ o r, ∀ b, s.step (c.reopening b) = ({ s with frontier := o }, r)) ∨
    ∃ v o, Taken s v o ∧
      ((v = sink ∧ s.nextEstimate? c = none ∧
        ∀ b, s.step (c.reopening b) = (s.take v o, .solved (s.node v).cost)) ∨
      (v ≠ sink ∧ s.nextEstimate? c = some (Cost.add (s.node v).cost (s.node v).estimate) ∧
        ∀ b, s.step (c.reopening b) =
          ((s.take v o).count fun k => { k with expanded := k.expanded + 1 }).expand (c.reopening b) v
            (s.node v).cost)) := by
  unfold nextEstimate? Search.step
  by_cases hlimit : c.stateLimit.any (· ≤ s.table.size) = true
  · rw [if_pos hlimit]
    exact .inl ⟨rfl, s.frontier, .full, fun b => if_pos hlimit⟩
  · rw [if_neg hlimit]
    have hgoes : ∀ b, (c.reopening b).stateLimit.any (· ≤ s.table.size) ≠ true := fun _ => hlimit
    simp only [if_neg (hgoes _)]
    rcases h.pop_cases with ⟨o, hpop, -⟩ | ⟨v, number, o, hv, hpop⟩
    · rw [hpop]
      exact .inl ⟨rfl, o, .exhausted, fun _ => rfl⟩
    · rw [hpop]
      refine .inr ⟨v, o, hv, ?_⟩
      by_cases hsink : v = sink
      · exact .inl ⟨hsink, if_pos hsink, fun _ => if_pos hsink⟩
      · exact .inr ⟨hsink, if_neg hsink, fun _ => if_neg hsink⟩

namespace Final

variable {o : OpenList} {plan : Plan} {past : Int}

theorem quiet (hf : Final c s) (hq : Quiet c x cost s s') (hs : Recorded c s) (hg : Grows s s') :
    Final c s' where
  least hx hclosed hrun := by
    have heq := hq.node_of_closed (ne_sink_of_stateOf? hx) hclosed
    rw [heq] at hclosed ⊢
    exact hf.least (hs.state_of_seen hg (by simp [hclosed]) hx) hclosed hrun
  closed {w} hw hexp := by
    rcases hq.node w hw with heq | ⟨hopen, heq, -⟩
    · rw [heq] at hexp ⊢
      exact hf.closed hw hexp
    · exact absurd (hf.closed hw (heq ▸ hexp)) hopen
  reopened := hq.reopened.trans hf.reopened

/-- As closed nodes have the least costs, no operator offers one of them less. -/
theorem sheltered (hf : Final c s) (hrun : c.task.run? c.task.initial plan = some (x, past))
    (hcost : cost = min Cost.top past)
    (htop : ∀ {w}, (s.node w).status = .closed → (s.node w).cost ≤ Cost.top) :
    Sheltered c x cost s := by
  intro w op hop hw hclosed
  have hle := hf.least hw hclosed (Task.run?_concat hrun hop)
  have := htop hclosed
  rw [hcost, Cost.add_min_top (Task.run?_cost_nonneg hrun) (c.task.operator_cost_nonneg op)]
  omega

/-- The node that is taken, with its edges about to be recorded. -/
theorem mark_take (hf : Final c s) (h : Underway c s [] none) (hroot : (s.node root).status ≠ .unseen)
    (hc : c.Consistent) (hv : Taken s v o) {f : Statistics → Statistics}
    (hcount : ∀ k, (f k).reopened = k.reopened) :
    Final c (((s.take v o).count f).markExpanded v) := by
  constructor
  case least =>
    intro w y plan cost hy hclosed hrun
    rw [(hv.sameRecord_mark f).stateOf?] at hy
    by_cases hw : w = v
    · subst hw
      rw [hv.node_mark]
      exact hf.least_of_taken h hroot hc hv hy hrun
    · rw [hv.node_mark_ne hw] at hclosed ⊢
      exact hf.least hy hclosed hrun
  case closed =>
    intro w hne hexp
    by_cases hw : w = v
    · rw [hw, hv.node_mark]
    · rw [hv.node_mark_ne hw] at hexp ⊢
      exact hf.closed hne hexp
  case reopened => exact (hcount _).trans hf.reopened

/-- A node that is taken is expanded for the first time, and it does not matter whether closed nodes may be
opened again. -/
theorem expand_taken (hf : Final c s) (h : Underway c s [] none)
    (hroot : (s.node root).status ≠ .unseen) (hc : c.Consistent) (hv : Taken s v o) (hsink : v ≠ sink)
    {f : Statistics → Statistics} (hcount : ∀ k, (f k).reopened = k.reopened) :
    ∃ x, s.stateOf? v = some x ∧
      (∀ b, ((s.take v o).count f).expand (c.reopening b) v (s.node v).cost =
        ((s.take v o).count f).expand c v (s.node v).cost) ∧
      Quiet c x (s.node v).cost (((s.take v o).count f).markExpanded v)
        (((s.take v o).count f).expand c v (s.node v).cost).1 ∧
      Final c (((s.take v o).count f).expand c v (s.node v).cost).1 := by
  have hsame := hv.sameRecord f
  obtain ⟨x, hx⟩ := exists_stateOf? h.recorded.size_eq hv.lt_nodes hsink h.recorded.root_state
  obtain ⟨plan, past, hrun, hcost⟩ := h.exists_run hc.group (.inl hv.waiting) hx
  have hfinal := hf.mark_take h hroot hc hv hcount
  have hexp : ¬(((s.take v o).count f).node v).expanded = true := by
    intro hexp
    rw [hv.node_take] at hexp
    cases hv.waiting.symm.trans (hf.closed hsink hexp)
  have htop : ∀ {w}, ((((s.take v o).count f).markExpanded v).node w).status = .closed →
      ((((s.take v o).count f).markExpanded v).node w).cost ≤ Cost.top := by
    intro w hclosed
    by_cases hw : w = v
    · rw [hw, hv.node_mark]
      exact h.cost_le_top (.inl hv.waiting)
    · rw [hv.node_mark_ne hw] at hclosed ⊢
      exact h.cost_le_top (.inr hclosed)
  obtain ⟨hequal, hquiet, hgrows⟩ := (hsame.recorded h.recorded).expand_quiet hc.group hexp
    ((hsame.stateOf? v).trans hx) (hfinal.sheltered hrun hcost htop)
  exact ⟨x, hx, hequal, hquiet, hfinal.quiet hquiet ((hv.sameRecord_mark f).recorded h.recorded) hgrows⟩

/-- A step keeps closed nodes final, and it is the same whether closed nodes may be opened again or not. -/
theorem step (hf : Final c s) (h : Underway c s [] none) (hroot : (s.node root).status ≠ .unseen)
    (hc : c.Consistent) : Final c (s.step c).1 ∧ ∀ b, s.step (c.reopening b) = s.step c := by
  rcases h.step_alike with ⟨-, o, r, heq⟩ | ⟨v, o, hv, ⟨rfl, -, heq⟩ | ⟨hsink, -, heq⟩⟩
  · rw [show s.step c = _ from heq c.reopen]
    exact ⟨⟨hf.least, hf.closed, hf.reopened⟩, heq⟩
  · rw [show s.step c = _ from heq c.reopen]
    refine ⟨⟨fun {w y plan cost} hy hclosed hrun => ?_, fun {w} hw hexp => ?_, hf.reopened⟩, heq⟩
    · have hnode : (s.take sink o).node w = s.node w := hv.node_take_ne (ne_sink_of_stateOf? hy) id
      rw [hnode] at hclosed ⊢
      exact hf.least hy hclosed hrun
    · have hnode : (s.take sink o).node w = s.node w := hv.node_take_ne hw id
      rw [hnode] at hexp ⊢
      exact hf.closed hw hexp
  · obtain ⟨x, -, hequal, -, hfinal⟩ := hf.expand_taken h hroot hc hv hsink
      (f := fun k => { k with expanded := k.expanded + 1 }) fun _ => rfl
    rw [show s.step c = _ from heq c.reopen]
    exact ⟨hfinal, fun b => (heq b).trans (hequal b)⟩

theorem start (h : start c = .ok s) : Final c s := by
  have hs : ((seed c).open? c root 0 none).1 = s := congrArg Prod.fst (start_eq_ok_iff.mp h)
  have hnode : ∀ w, (s.node w).status ≠ .closed ∧ (s.node w).expanded = false := by
    intro w
    rw [← hs]
    by_cases hw : w = root
    · subst hw
      rcases open?_node_self (show root < (seed c).nodes.size from Nat.zero_lt_two) with
        heq | ⟨hexp, hdead | ⟨hwaiting, -⟩⟩
      · rw [heq, seed_node]
        exact ⟨nofun, rfl⟩
      · rw [hexp, hdead, seed_node]
        exact ⟨nofun, rfl⟩
      · rw [hexp, hwaiting, seed_node]
        exact ⟨nofun, rfl⟩
    · rw [open?_node_ne hw, seed_node]
      exact ⟨nofun, rfl⟩
  refine ⟨fun _ hclosed => absurd hclosed (hnode _).1, fun _ hexp => ?_, ?_⟩
  · rw [(hnode _).2] at hexp
    cases hexp
  · rw [← hs, open?_reopened]
    rfl

end Final

namespace Faultless

theorem final (h : Faultless c s) (hc : c.Consistent) : Final c s := by
  induction h with
  | start h => exact .start h
  | step hs _ ih => exact (ih.step hs.underway.1 hs.underway.2 hc).1
  | leastEstimate _ ih => exact ⟨ih.least, ih.closed, ih.reopened⟩

theorem step_reopening (h : Faultless c s) (hc : c.Consistent) (b : Bool) :
    s.step (c.reopening b) = s.step c :=
  ((h.final hc).step h.underway.1 h.underway.2 hc).2 b

end Faultless

end Search

end RankedPlans
