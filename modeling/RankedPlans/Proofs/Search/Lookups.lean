import RankedPlans.Proofs.Heuristic.Lookups
import RankedPlans.Proofs.Search.Frontier
import RankedPlans.Proofs.Search.Representatives
import RankedPlans.Proofs.Symmetry.Lookups

/-! A search with every access to a state, an operator, a generator or a recorded edge checked. All registered
states are states of the task, because the initial state is one and operators and generators lead from states
of the task to states of the task. So no lookup of a search fails, and none fails when a path is decoded. -/

namespace RankedPlans

namespace Checked

def canonical (c : SearchSetting) (x : State) : Option (State × List Nat) :=
  match c.group with
  | some g => canonicalState g x
  | none => some (x, [])

def successor (c : SearchSetting) (v : Nat) (x : State) (s : Search) (op : Nat) :
    Option (Search × Nat × Nat) := do
  let s := s.count fun k => { k with generated := k.generated + 1 }
  let r ← canonical c (← apply c.task x op)
  let s := if r.2.isEmpty then s else s.count fun k => { k with pruned := k.pruned + 1 }
  let interned := s.intern r.1
  let o ← c.task.operators[op]?
  let recorded := interned.1.record ⟨v, interned.2, .operator op, o.cost⟩
  return (recorded.1, interned.2, recorded.2)

def isGoalNode (c : SearchSetting) (s : Search) (v : Nat) : Option Bool := do
  isGoal c.task (← s.stateOf? v)

/-- What a step came to, unless the heuristic failed. -/
def outcome (o : StepOutcome) (r : Search × Option NegativeEstimate) : Search × StepOutcome :=
  (r.1, r.2.elim o .failed)

section Run

variable (c : SearchSetting) (est : State → Option Estimate)

/-- Meets a node for the first time. The sink is not estimated; every other node has a state. -/
def meet (s : Search) (v : Nat) (cost : Int) (via : Option Nat) : Option (Search × Option NegativeEstimate) :=
  if v = Search.sink then return s.open? c v cost via
  else do
    let e ← est (← s.stateOf? v)
    -- what is done with an estimate does not depend on where it comes from
    return s.open? { c with heuristic := ⟨c.heuristic.name, fun _ _ => e⟩ } v cost via

def relax (s : Search) (v : Nat) (cost : Int) (via : Nat) : Option (Search × Option NegativeEstimate) :=
  if (s.node v).status = .unseen then meet c est s v cost (some via) else return s.relax c v cost via

def relaxAgain (cost : Int) : List Nat → Search → Option (Search × Option NegativeEstimate)
  | [], s => some (s, none)
  | e :: rest, s => do
    let edge ← s.edges[e]?
    let r ← relax c est s edge.target (Cost.add cost edge.cost) e
    if r.2.isSome then return r else relaxAgain cost rest r.1

def generate (v : Nat) (cost : Int) (x : State) :
    List Nat → Search → Bool → Option (Search × Bool × Option NegativeEstimate)
  | [], s, goal => some (s, goal, none)
  | op :: rest, s, goal => do
    let o ← c.task.operators[op]?
    let r ← successor c v x s op
    let met ← isGoalNode c r.1 r.2.1
    let tried ← relax c est r.1 r.2.1 (Cost.add cost o.cost) r.2.2
    if tried.2.isSome then return (tried.1, goal || met, tried.2)
    else generate v cost x rest tried.1 (goal || met)

def recordGoal (v : Nat) (cost : Int) (s : Search) : Option (Search × Option NegativeEstimate) :=
  let recorded := s.record ⟨v, Search.sink, .goal, 0⟩
  relax c est recorded.1 Search.sink cost recorded.2

def expand (s : Search) (v : Nat) (cost : Int) : Option (Search × StepOutcome) :=
  if (s.node v).expanded then do
    return outcome (.expanded false) (← relaxAgain c est cost (s.graph.outgoing v) s)
  else do
    let x ← s.stateOf? v
    let r ← generate c est v cost x (← applicable c.task x) (s.markExpanded v) false
    if r.2.2.isSome then return outcome (.expanded r.2.1) (r.1, r.2.2)
    else if ← isGoal c.task x then return outcome (.expanded true) (← recordGoal c est v cost r.1)
    else return (r.1, .expanded r.2.1)

def step (s : Search) : Option (Search × StepOutcome) :=
  if c.stateLimit.any (· ≤ s.table.size) then return (s, .full)
  else
    match s.frontier.pop? s.isCurrent with
    | (none, frontier) => return ({ s with frontier }, .exhausted)
    | (some (v, _, _), frontier) =>
      let taken := s.take v frontier
      if v = Search.sink then return (taken, .solved (s.node v).cost)
      else expand c est (taken.count fun k => { k with expanded := k.expanded + 1 }) v (s.node v).cost

def start : Option (Except NegativeEstimate Search) := do
  let r ← canonical c c.task.initial
  let table := (Numbering.empty : Numbering State).insert r.1
  let met ← meet c est ⟨table.1, #[{}, {}], #[], {}, {}⟩ Search.root 0 none
  return met.2.elim (.ok met.1) .error

end Run

def decodeFrom (c : SearchSetting) (s : Search) (g : SymmetryGroup) : List Nat → List Nat → Option Plan
  | _, [] => some []
  | trace, e :: rest => do
    let edge ← s.edges[e]?
    match edge.label with
    | .goal => decodeFrom c s g trace rest
    | .operator op =>
      let real ← unmapOperator g trace op
      let y ← apply c.task (← s.stateOf? edge.source) op
      let r ← canonicalState g y
      let plan ← decodeFrom c s g (trace ++ r.2) rest
      return real :: plan

/-- The plan of a path of edges. Without a group the operators are read off the edges that the costs were read
from. -/
def decode (c : SearchSetting) (s : Search) (path : List Nat) : Option CostedPlan := do
  let cost ← path.foldlM (fun total e => do return Cost.add total (← s.edges[e]?).cost) 0
  match c.group with
  | none => return ⟨cost, s.operators path⟩
  | some g =>
    let r ← canonicalState g c.task.initial
    return ⟨cost, ← decodeFrom c s g r.2 path⟩

/-- What a search needs for its lookups: a group that acts on the task, and checked estimates of all states. -/
structure Checkable (c : SearchSetting) (est : State → Option Estimate) : Prop where
  grouped : c.Grouped
  fits : ∀ g, c.group = some g → g.Fits c.task
  estimate : ∀ x, c.task.IsState x → est x = some (c.heuristic.estimate c.task x)

/-- The node is the sink or holds a state of the task. -/
def Known (c : SearchSetting) (s : Search) (v : Nat) : Prop :=
  v = Search.sink ∨ ∃ x, s.stateOf? v = some x ∧ c.task.IsState x

variable {c : SearchSetting} {est : State → Option Estimate} {s : Search} {v : Nat} {x : State} {cost : Int}
  {g : SymmetryGroup}

theorem known_of_lt (h : Search.Recorded c s) (hc : c.Grouped) (hv : v < s.nodes.size) : Known c s v := by
  by_cases hne : v = Search.sink
  · exact .inl hne
  · obtain ⟨x, hx⟩ := Search.exists_stateOf? h.size_eq hv hne h.root_state
    exact .inr ⟨x, hx, h.isState hc hx⟩

section Steps

variable (hc : Checkable c est)
include hc

theorem canonical_eq (hx : c.task.IsState x) : canonical c x = some (c.canonical x) := by
  cases hgroup : c.group with
  | none => rw [canonical, Search.canonical_of_none hgroup, hgroup]
  | some g =>
    rw [canonical, Search.canonical_of_some hgroup, hgroup]
    exact canonicalState_eq (hc.grouped g hgroup) (hc.fits g hgroup) hx

theorem successor_eq {op : Nat} (hx : c.task.IsState x) (hop : op < c.task.operators.size) (v : Nat) (s : Search) :
    successor c v x s op = some (Search.successor c v x s op) := by
  rw [successor, apply_eq hx hop]
  simp only [Option.bind_eq_bind, Option.bind_some, canonical_eq hc (hx.apply op), getElem?_operators hop]
  rfl

theorem meet_eq (hv : Known c s v) (cost : Int) (via : Option Nat) :
    meet c est s v cost via = some (s.open? c v cost via) := by
  rcases hv with hsink | ⟨x, hx, hstate⟩
  · exact if_pos hsink
  · rw [meet, if_neg (Search.ne_sink_of_stateOf? hx), hx]
    simp only [Option.bind_eq_bind, Option.bind_some, hc.estimate x hstate, Search.open?, hx]
    rfl

theorem relax_eq (hv : Known c s v) (cost : Int) (via : Nat) :
    relax c est s v cost via = some (s.relax c v cost via) := by
  rw [relax]
  split
  · rename_i hunseen
    rw [meet_eq hc hv, Search.relax]
    simp only [hunseen]
  · rfl

theorem relaxAgain_eq (h : Search.Recorded c s) {es : List Nat} (hes : ∀ e ∈ es, e < s.edges.size) (cost : Int) :
    relaxAgain c est cost es s = some (Search.relaxAgain c cost es s) := by
  induction es generalizing s with
  | nil => rfl
  | cons e es ih =>
    obtain ⟨he, hes⟩ := List.forall_mem_cons.mp hes
    have hedge := Array.getElem?_eq_getElem he
    have hsame := Search.SameRecord.relax c s s.edges[e].target (Cost.add cost s.edges[e].cost) e
    rw [relaxAgain, Search.relaxAgain, hedge]
    simp only [Option.bind_eq_bind, Option.bind_some]
    rw [relax_eq hc (known_of_lt h hc.grouped (h.target_lt hedge))]
    generalize s.relax c s.edges[e].target (Cost.add cost s.edges[e].cost) e = r at hsame
    obtain ⟨s', fault⟩ := r
    cases fault with
    | some fault => rfl
    | none => exact ih (hsame.recorded h) fun e he => hsame.edges ▸ hes e he

theorem generate_eq {ops : List Nat} (h : Search.Generating c v x ops s) (cost : Int) (goal : Bool) :
    generate c est v cost x ops s goal = some (Search.generate c v cost x ops s goal) := by
  -- The induction is on the operators: the record stays sound while their edges are tried.
  induction ops generalizing s goal with
  | nil => rfl
  | cons op ops ih =>
    have hx := h.recorded.isState hc.grouped h.state
    have hop := (Task.mem_applicable_iff.mp (h.applicable op (List.mem_cons_self ..))).1
    obtain ⟨hrecorded, -, -, -, hedge⟩ := h.successor
    obtain ⟨hnext, -⟩ := h.step (Cost.add cost (c.task.operator op).cost)
    obtain ⟨y, -, -, -, htarget⟩ := hrecorded.meant ((hedge _ _).mpr (.inr ⟨rfl, rfl⟩))
    have hstate := hrecorded.isState hc.grouped htarget
    rw [generate, getElem?_operators hop, Search.generate_cons_eq]
    simp only [Option.bind_eq_bind, Option.bind_some, successor_eq hc hx hop]
    generalize Search.successor c v x s op = r at htarget hnext
    obtain ⟨s₁, target, e⟩ := r
    have hgoal : isGoalNode c s₁ target = some (s₁.isGoalNode c target) := by
      rw [isGoalNode, Search.isGoalNode, htarget]
      exact isGoal_eq hstate
    simp only [hgoal, Option.bind_some, relax_eq hc (.inr ⟨_, htarget, hstate⟩)]
    generalize s₁.relax c target (Cost.add cost (c.task.operator op).cost) e = r at hnext
    obtain ⟨s₂, fault⟩ := r
    cases fault with
    | some fault => rfl
    | none => exact ih hnext _

theorem recordGoal_eq (v : Nat) (cost : Int) (s : Search) :
    recordGoal c est v cost s = some (Search.recordGoal c v cost s) :=
  relax_eq hc (.inl rfl) cost _

theorem expand_eq (h : Search.Recorded c s) (hv : v < s.nodes.size) (hne : v ≠ Search.sink) (cost : Int) :
    expand c est s v cost = some (s.expand c v cost) := by
  by_cases hexp : (s.node v).expanded = true
  · have hes : ∀ e ∈ s.graph.outgoing v, e < s.edges.size := fun e he => by
      obtain ⟨edge, hedge, -⟩ := Search.mem_outgoing_iff.mp he
      exact (Array.getElem?_eq_some_iff.mp hedge).1
    rw [expand, if_pos hexp, relaxAgain_eq hc h hes, Search.expand, if_pos hexp]
    rcases Search.relaxAgain c cost (s.graph.outgoing v) s with ⟨s', fault⟩
    cases fault <;> rfl
  · obtain ⟨x, hx⟩ := Search.exists_stateOf? h.size_eq hv hne h.root_state
    have hstate := h.isState hc.grouped hx
    rw [expand, if_neg hexp, hx, Search.expand_new hexp hx]
    simp only [Option.bind_eq_bind, Option.bind_some, applicable_eq hstate, isGoal_eq hstate,
      generate_eq hc (h.generating hexp hx), recordGoal_eq hc]
    rcases Search.generate c v cost x (c.task.applicable x) (s.markExpanded v) false with ⟨s₁, goal, fault⟩
    cases fault with
    | some fault => rfl
    | none =>
      cases hgoal : c.task.isGoal x with
      | true =>
        simp only [if_true]
        rcases Search.recordGoal c v cost s₁ with ⟨s₂, fault⟩
        cases fault <;> rfl
      | false => rfl

theorem step_eq (h : Search.Recorded c s) (hq : Search.Queued s) : step c est s = some (s.step c) := by
  unfold step Search.step
  split
  · rfl
  rcases hq.pop_cases with ⟨o, hpop, -⟩ | ⟨v, f, number, o, hpop, hv, -⟩
  · rw [hpop]
    rfl
  · rw [hpop]
    simp only
    split
    · rfl
    · rename_i hne
      have hsame := Search.sameRecord_take s v o fun k => { k with expanded := k.expanded + 1 }
      exact expand_eq hc (hsame.recorded h) (hsame.size ▸ hv) hne (s.node v).cost

theorem start_eq : start c est = some (Search.start c) := by
  have hroot := known_of_lt (Search.seed_recorded c) hc.grouped (show Search.root < 2 by decide)
  rw [start, canonical_eq hc c.task.isState_initial]
  show (meet c est (Search.seed c) Search.root 0 none).bind _ = some (Search.start c)
  rw [meet_eq hc hroot, Search.start_eq]
  rfl

end Steps

theorem foldlM_cost_eq {es : List Nat} (hes : ∀ e ∈ es, e < s.edges.size) (total : Int) :
    es.foldlM (fun total e => do return Cost.add total (← s.edges[e]?).cost) total =
      some (es.foldl (fun total e => Cost.add total ((s.edges[e]?.map Edge.cost).getD 0)) total) := by
  refine (foldlM_eq_some (P := fun _ => True) (fun e he total _ => ⟨?_, trivial⟩) trivial).1
  rw [Array.getElem?_eq_getElem (hes e he)]
  rfl

theorem decodeFrom_eq (h : Search.Recorded c s) (hc : c.Grouped) (hgroup : c.group = some g)
    (hfits : g.Fits c.task) {trace es : List Nat} (hv : g.Valid trace) (hes : ∀ e ∈ es, e < s.edges.size) :
    decodeFrom c s g trace es = some (Search.decodeFrom c s g trace es) := by
  induction es generalizing trace with
  | nil => rfl
  | cons e es ih =>
    obtain ⟨he, hes⟩ := List.forall_mem_cons.mp hes
    have hedge := Array.getElem?_eq_getElem he
    obtain ⟨x, hx, hmeant⟩ := h.meant hedge
    rw [decodeFrom, hedge]
    simp only [Option.bind_eq_bind, Option.bind_some]
    cases hlabel : s.edges[e].label with
    | goal =>
      rw [Search.decodeFrom_goal hedge hlabel]
      exact ih hv hes
    | operator op =>
      rw [hlabel] at hmeant
      have hg := hc g hgroup
      have hstate := h.isState hc hx
      have hop := (Task.mem_applicable_iff.mp hmeant.1).1
      rw [Search.decodeFrom_operator hedge hlabel hx]
      simp only [unmapOperator_eq hg hfits hv hop, hx, Option.bind_some, apply_eq hstate hop,
        canonicalState_eq hg hfits (hstate.apply op)]
      rw [ih (hv.append (g.canonicalState_spec _).1) hes]
      rfl

theorem decode_eq (h : Search.Recorded c s) (hc : c.Grouped) (hfits : ∀ g, c.group = some g → g.Fits c.task)
    {es : List Nat} (hes : ∀ e ∈ es, e < s.edges.size) : decode c s es = some (s.decode c es) := by
  rw [decode, foldlM_cost_eq hes, Search.decode]
  cases hgroup : c.group with
  | none => rfl
  | some g =>
    have hfits := hfits g hgroup
    simp only [Option.bind_eq_bind, Option.bind_some,
      canonicalState_eq (hc g hgroup) hfits c.task.isState_initial,
      decodeFrom_eq h hc hgroup hfits (g.canonicalState_spec _).1 hes]
    rfl

end Checked

namespace Search

variable {c : SearchSetting} {s : Search}

/-- In every search among the representatives of a computed group, or without a group, every registered state is
a state of the task, and no lookup fails: not in an estimate of a heuristic that can be chosen, not in the start
and the next step of the search under any heuristic that estimates all states of the task, and not when a path of
recorded edges is decoded. -/
theorem Reached.lookups_succeed (h : Reached c s)
    (hgroup : ∀ g, c.group = some g → ∃ policy fixInitial, g = .ofTask c.task policy fixInitial) :
    (∀ i x, s.table.item? i = some x → c.task.IsState x) ∧
    (∀ (choice : HeuristicChoice) x, c.task.IsState x →
      Checked.estimate choice c.task x = some (choice.heuristic.estimate c.task x)) ∧
    (∀ est : State → Option Estimate,
      (∀ x, c.task.IsState x → est x = some (c.heuristic.estimate c.task x)) →
        Checked.start c est = some (Search.start c) ∧ Checked.step c est s = some (s.step c)) ∧
    ∀ es, (∀ e ∈ es, e < s.edges.size) → Checked.decode c s es = some (s.decode c es) := by
  have hc : c.Grouped := by
    intro g hg
    obtain ⟨policy, fixInitial, rfl⟩ := hgroup g hg
    exact SymmetryGroup.ofTask_sound c.task policy fixInitial
  have hfits : ∀ g, c.group = some g → g.Fits c.task := by
    intro g hg
    obtain ⟨policy, fixInitial, rfl⟩ := hgroup g hg
    exact SymmetryGroup.ofTask_fits c.task policy fixInitial
  have hs := h.recorded
  refine ⟨fun i x hx => hs.isState hc (stateOf?_eq_some_iff.mpr ⟨i, rfl, hx⟩),
    fun choice x hx => Checked.estimate_eq choice hx, fun est hest => ?_, fun es hes => Checked.decode_eq hs hc hfits hes⟩
  exact ⟨Checked.start_eq ⟨hc, hfits, hest⟩, Checked.step_eq ⟨hc, hfits, hest⟩ hs h.queued⟩

/-- Two lamps that are alike, one of them on, and a dial with a value more. -/
def lampsAndDial : Task where
  vars := #[⟨"left", ["off", "on"]⟩, ⟨"dial", ["low", "middle", "high"]⟩, ⟨"right", ["off", "on"]⟩]
  operators := #[⟨"light left", 1, [], [⟨0, 1⟩]⟩, ⟨"light right", 1, [], [⟨2, 1⟩]⟩,
    ⟨"turn up", 2, [⟨1, 0⟩], [⟨1, 2⟩]⟩]
  initial := #[1, 0, 0]
  goal := [⟨0, 1⟩, ⟨1, 2⟩, ⟨2, 1⟩]
  normalized := by decide +kernel
  faultless := by decide +kernel

/-- The symmetry that exchanges the lamps. -/
def lampsAndDialGroup : SymmetryGroup where
  generators := #[⟨#[2, 1, 0], #[#[0, 1], #[0, 1, 2], #[0, 1]], #[1, 0, 2], #[1, 0, 2]⟩]
  fixesInitial := false
  complete := true
  orbitLimit := 1000
  stateCount := 12

theorem lampsAndDialGroup_eq : lampsAndDialGroup = .ofTask lampsAndDial {} false := by decide +kernel

/-- The representative of the initial state has the other lamp on. -/
def lampsAndDialSetting : SearchSetting :=
  ⟨lampsAndDial, .max, some lampsAndDialGroup, true, none⟩

/-- A search for the least way to light both lamps and to turn the dial, after so many steps. -/
def lampsAndDialSearch : Nat → Search
  | 0 => ((seed lampsAndDialSetting).open? lampsAndDialSetting root 0 none).1
  | n + 1 => ((lampsAndDialSearch n).step lampsAndDialSetting).1

theorem lampsAndDialSearch_reached : Reached lampsAndDialSetting (lampsAndDialSearch 4) := by
  have hstart : Search.start lampsAndDialSetting = .ok (lampsAndDialSearch 0) := start_eq_ok (by decide +kernel)
  exact (Reached.start hstart).step.step.step.step

/-- The last step takes the sink, and the walk to it lights the lamp that is off. -/
theorem Reached.lookups_succeed_lampsAndDial :
    (∀ i x, (lampsAndDialSearch 4).table.item? i = some x → lampsAndDial.IsState x) ∧
    (Checked.step lampsAndDialSetting (Checked.estimate .max lampsAndDial) (lampsAndDialSearch 4)).map (·.2) =
      some (.solved 3) ∧
    Checked.decode lampsAndDialSetting (lampsAndDialSearch 4) [0, 5, 10] = some ⟨3, [1, 2]⟩ := by
  obtain ⟨hstates, hestimate, hrun, hdecode⟩ := Reached.lookups_succeed lampsAndDialSearch_reached
    fun g hg => ⟨{}, false, (Option.some.inj hg).symm.trans lampsAndDialGroup_eq⟩
  have hsolved : ((lampsAndDialSearch 4).step lampsAndDialSetting).2 = .solved 3 := by decide +kernel
  have hplan : (lampsAndDialSearch 4).decode lampsAndDialSetting [0, 5, 10] = ⟨3, [1, 2]⟩ := by decide +kernel
  have hstep := (hrun (Checked.estimate .max lampsAndDial) (hestimate .max)).2
  refine ⟨hstates, ?_, ?_⟩
  · rw [hstep, Option.map_some, hsolved]
  · rw [hdecode [0, 5, 10] (by decide +kernel), hplan]

/-- A value that a lamp does not have has no place among the costs. -/
example : Checked.estimate .max lampsAndDial #[1, 0, 2] = none := by decide +kernel

end Search

end RankedPlans
