import RankedPlans.Enumeration.Termination
import RankedPlans.Path.Enumeration
import RankedPlans.Search.Decoding

/-!
The enumeration of the cheapest plans. A search runs until it finds a plan. Then rounds and batches take
turns: a round enumerates the paths of the graph recorded so far and takes the plans that no waiting
node can undercut; a batch lets the search go on. The last round's plans are the result.
-/

namespace RankedPlans

/-- Why an enumeration fails. -/
inductive EnumerationFault where
  | request (fault : Request.Fault)
  | policy (fault : Policy.Fault)
  | heuristic (fault : NegativeEstimate)

/-- The wording of a fault. -/
def EnumerationFault.message : EnumerationFault → String
  | request fault => fault.message
  | policy fault => fault.message
  | heuristic fault => fault.message

/-- What stays the same during an enumeration. -/
structure EnumerationSetting where
  search : SearchSetting
  selection : SelectionRule
  request : Request
  policy : Policy
  /-- The number of generators of the larger group in use. -/
  generators : Nat

namespace EnumerationSetting

/-- Whether the time is up from the start on. Any other limit is taken to be long enough. -/
def expired (e : EnumerationSetting) : Bool :=
  e.request.milliseconds = some 0

/-- The groups for the search and for plans. The group of the search serves for plans too if it keeps
the initial state. -/
def groups (t : Task) (p : SymmetryPolicy) : Option SymmetryGroup × Option SymmetryGroup :=
  let search := if p.pruneSearch then some (SymmetryGroup.ofTask t p p.fixInitial) else none
  let plan :=
    if !p.mergePlans && !p.extendPlans then none
    else
      match search.filter (·.fixesInitial) with
      | some g => some g
      | none => some (SymmetryGroup.ofTask t p true)
  (search, plan)

/-- The setting of a request whose pattern is read. -/
def ofRequest (t : Task) (h : Heuristic) (r : Request) (preserved : Option Pattern) (p : Policy) :
    EnumerationSetting :=
  let (search, plan) := groups t p.symmetry
  let count := fun (g : Option SymmetryGroup) => (g.map (·.generators.size)).getD 0
  { search := ⟨t, h, search, p.reopen, p.stateLimit⟩
    selection :=
      { task := t
        key := .ofTask t r.unordered preserved
        merge := if p.symmetry.mergePlans then plan else none
        extend := if p.symmetry.extendPlans then plan else none
        reorderNodes := if p.reorderPlans then some p.reorderNodes else none
        limit := r.count }
    request := r
    policy := p
    generators := max (count search) (count plan) }

end EnumerationSetting

/-- What an enumeration is about to do. -/
inductive Phase where
  /-- To search for a first plan. -/
  | solving
  /-- To take the next path of a round, with the least sum of cost and estimate at its start. -/
  | collecting (rule : StopRule) (paths : PathEnumeration) (selection : Selection)
      (frontier : Option Int)
  /-- To expand a further node of a batch. -/
  | searching (rule : StopRule) (threshold : Option Int) (bounds : BatchBounds) (steps : Nat)

/-- The state of an enumeration. -/
structure Enumeration where
  search : Search
  phase : Phase
  /-- The plans of the last round. -/
  best : List CostedPlan := []
  /-- The least cost of a plan, once it is known. -/
  optimal : Option Int := none
  batches : Nat := 0
  rounds : Nat := 0
  candidates : Nat := 0
  duplicates : Nat := 0

/-- What a step of an enumeration leads to. -/
inductive Progress where
  | going (e : Enumeration)
  | finished (r : Result)
  | failed (fault : NegativeEstimate)

namespace Enumeration

/-- The result of an enumeration that ends for a reason. -/
def result (c : EnumerationSetting) (e : Enumeration) (reason : Termination) : Result where
  plans := e.best.map fun p => ⟨p.cost, c.search.task.actions p.plan⟩
  optimalCost := e.optimal
  unsolvable := reason = .unsolvable
  timedOut := reason = .timeout
  outOfStates := reason = .resourceExhausted
  termination := reason
  statistics := { e.search.counters with
    batches := e.batches
    rounds := e.rounds
    candidates := e.candidates
    duplicates := e.duplicates
    generators := c.generators }

/-- Starts a round on the graph recorded so far. -/
def startRound (c : EnumerationSetting) (e : Enumeration) : Progress :=
  let (frontier, search) := e.search.leastEstimate?
  let e := { e with search, rounds := e.rounds + 1 }
  let graph := search.graph
  let tree := graph.shortestPathTree Search.root Search.sink
  match tree.optimalCost? with
  | none => .finished (e.result c .unsolvable)
  | some cost =>
    let optimal := e.optimal.getD cost
    let rule := StopRule.ofRequest c.request optimal c.expired
    .going { e with
      optimal := some optimal
      phase := .collecting rule (.start graph tree) {} frontier }

/-- Takes the search one step further on the way to a first plan. -/
def solve (c : EnumerationSetting) (e : Enumeration) : Progress :=
  if c.expired then .finished (e.result c .timeout)
  else
    match e.search.step c.search with
    | (search, .expanded _) => .going { e with search }
    | (search, .solved _) => { e with search }.startRound c
    | (search, .exhausted) => .finished ({ e with search }.result c .unsolvable)
    | (search, .full) => .finished ({ e with search }.result c .resourceExhausted)
    | (_, .failed fault) => .failed fault

/-- Ends a round with the plans selected. -/
def endRound (e : Enumeration) (selection : Selection) : Enumeration :=
  { e with
    best := selection.plans.toList
    duplicates := e.duplicates + selection.duplicates }

/-- Starts a batch. -/
def startBatch (c : EnumerationSetting) (e : Enumeration) (rule : StopRule)
    (threshold : Option Int) : Enumeration :=
  { e with
    batches := e.batches + 1
    phase := .searching rule threshold (c.policy.batchBounds e.search.statistics.expanded) 0 }

/-- Judges the next path of a round, and takes it, ends the round or ends the enumeration. A round that
the clock cuts short counts only if it has at least as many plans as the one before. -/
def collect (c : EnumerationSetting) (e : Enumeration) (rule : StopRule) (paths : PathEnumeration)
    (selection : Selection) (frontier : Option Int) : Progress :=
  match rule.judge selection.size paths.nextCost? frontier with
  | .stop reason =>
    let ended := e.endRound selection
    let cut := reason = .timeout && selection.size < e.best.length
    .finished ((if cut then { ended with best := e.best } else ended).result c reason)
  | .search threshold => .going ((e.endRound selection).startBatch c rule threshold)
  | .accept =>
    match paths.next? with
    | none => .going ((e.endRound selection).startBatch c rule none)
    | some (candidate, paths) =>
      let plan := e.search.decode c.search (paths.edges candidate)
      let (selection, _) := selection.offer c.selection plan
      .going { e with
        candidates := e.candidates + 1
        phase := .collecting rule paths selection frontier }

/-- Goes on with a batch after a step of it, or starts the next round if the batch may end. -/
def continueBatch (c : EnumerationSetting) (e : Enumeration) (rule : StopRule)
    (threshold : Option Int) (bounds : BatchBounds) (steps : Nat) : Progress :=
  let (frontier, search) := e.search.leastEstimate?
  let e := { e with search }
  if rule.batchDone steps bounds threshold frontier then e.startRound c
  else .going { e with phase := .searching rule threshold bounds steps }

/-- Takes the search one step further in a batch. -/
def searchOn (c : EnumerationSetting) (e : Enumeration) (rule : StopRule) (threshold : Option Int)
    (bounds : BatchBounds) (steps : Nat) : Progress :=
  if rule.expired then .finished (e.result c .timeout)
  else
    match e.search.step c.search with
    | (search, .exhausted) => { e with search }.startRound c
    | (search, .full) => .finished ({ e with search }.result c .resourceExhausted)
    | (_, .failed fault) => .failed fault
    | (search, .expanded goal) =>
      let e := { e with search }
      if c.policy.stopAtGoal && goal then e.startRound c
      else e.continueBatch c rule threshold bounds (steps + 1)
    | (search, .solved _) => { e with search }.continueBatch c rule threshold bounds (steps + 1)

/-- One step of an enumeration. -/
def step (c : EnumerationSetting) (e : Enumeration) : Progress :=
  match e.phase with
  | .solving => e.solve c
  | .collecting rule paths selection frontier => e.collect c rule paths selection frontier
  | .searching rule threshold bounds steps => e.searchOn c rule threshold bounds steps

/-- Steps until the enumeration ends, at most so many; none if it does not end within them. -/
def run (c : EnumerationSetting) : Nat → Enumeration → Option (Except NegativeEstimate Result)
  | 0, _ => none
  | fuel + 1, e =>
    match e.step c with
    | .going e => run c fuel e
    | .finished r => some (.ok r)
    | .failed fault => some (.error fault)

/-- An enumeration at its start. -/
def start (c : EnumerationSetting) : Except NegativeEstimate Enumeration := do
  return { search := ← Search.start c.search, phase := .solving }

end Enumeration

namespace Task

/-- The setting of an enumeration, if request and policy are sound. -/
def enumerationSetting (t : Task) (h : Heuristic) (r : Request) (p : Policy) :
    Except EnumerationFault EnumerationSetting :=
  match r.check with
  | .error fault => .error (.request fault)
  | .ok preserved =>
    match p.fault? with
    | some fault => .error (.policy fault)
    | none => .ok (.ofRequest t h r preserved p)

/-- Enumerates the cheapest plans of a task in at most so many steps; none if these do not suffice. -/
def enumerate? (t : Task) (h : Heuristic) (r : Request) (p : Policy) (steps : Nat) :
    Option (Except EnumerationFault Result) :=
  match t.enumerationSetting h r p with
  | .error fault => some (.error fault)
  | .ok c =>
    match Enumeration.start c with
    | .error fault => some (.error (.heuristic fault))
    | .ok e => (e.run c steps).map (·.mapError .heuristic)

end Task

end RankedPlans
