import RankedPlans.Cost
import RankedPlans.Enumeration.Policy
import RankedPlans.Enumeration.Result
import RankedPlans.Graph.Basic
import RankedPlans.Heuristic.Basic
import RankedPlans.Numbering
import RankedPlans.Search.OpenList
import RankedPlans.Symmetry.Group

/-!
A search for cheapest plans that records every edge it looks at. It is driven step by step: each step
takes the most promising node and expands it. Goal states have an edge without cost to one sink, and
when the sink is taken its path cost is the least cost of a plan.
-/

namespace RankedPlans

/-- What a node has gone through. -/
inductive NodeStatus where
  /-- It has no estimate yet. -/
  | unseen
  /-- It waits on the open list. -/
  | waiting
  /-- It has been taken from the open list. -/
  | closed
  /-- No goal can be reached from it. -/
  | deadEnd
deriving DecidableEq, Repr, Inhabited

structure SearchNode where
  /-- The least cost of a path found so far. -/
  cost : Int := 0
  /-- The estimate of the cost that is left. -/
  estimate : Int := 0
  /-- The edge through which the cost was reached. -/
  parent : Option Nat := none
  status : NodeStatus := .unseen
  /-- Whether the edges out of the node are recorded. -/
  expanded : Bool := false
deriving DecidableEq, Repr, Inhabited

/-- What stays the same during a search. -/
structure SearchSetting where
  task : Task
  heuristic : Heuristic
  /-- States are replaced by representatives under this group. -/
  group : Option SymmetryGroup
  /-- Whether a closed node is opened again when a cheaper path to it is found. -/
  reopen : Bool
  /-- How many states the search may hold. -/
  stateLimit : Option Nat

/-- An estimate below zero, which no heuristic may give. -/
structure NegativeEstimate where
  heuristic : String
  value : Int
  state : String
deriving DecidableEq, Repr

/-- The state of a search. The root is node zero, the sink node one, and all further nodes follow in
the order of their states. -/
structure Search where
  table : Numbering State
  nodes : Array SearchNode
  edges : Array Edge
  frontier : OpenList
  statistics : Statistics

/-- What a step did. -/
inductive StepOutcome where
  /-- A state was expanded; the flag says whether a goal state was met. -/
  | expanded (goal : Bool)
  /-- The sink was taken at this cost. -/
  | solved (cost : Int)
  /-- The open list is empty. -/
  | exhausted
  /-- The search holds as many states as it may. -/
  | full
  | failed (fault : NegativeEstimate)
deriving DecidableEq, Repr

/-- The wording of the fault. -/
def NegativeEstimate.message (e : NegativeEstimate) : String :=
  "heuristic `" ++ e.heuristic ++ "` returned " ++ toString e.value ++ " for state " ++ e.state

namespace SearchSetting

/-- The representative of a state, and the generators applied to reach it. -/
def canonical (c : SearchSetting) (s : State) : State × List Nat :=
  match c.group with
  | some g => g.canonicalState s
  | none => (s, [])

end SearchSetting

namespace Search

/-- The node of the initial state. -/
def root : Nat := 0

/-- The node that every goal state leads to. -/
def sink : Nat := 1

/-- The node of a state by its number in the table. -/
def nodeOf (id : Nat) : Nat :=
  if id = 0 then root else id + 1

/-- The state of a node; the sink has none. -/
def stateOf? (s : Search) (v : Nat) : Option State :=
  if v = sink then none else s.table.item? (if v = root then 0 else v - 1)

/-- A node by its number. -/
def node (s : Search) (v : Nat) : SearchNode :=
  s.nodes.getD v default

/-- The recorded graph. -/
def graph (s : Search) : Graph :=
  ⟨s.nodes.size, s.edges⟩

/-- The counters, with the numbers of states and edges. -/
def counters (s : Search) : Statistics :=
  { s.statistics with states := s.table.size, edges := s.edges.size }

/-- The number of closed nodes. -/
def closedCount (s : Search) : Nat :=
  s.nodes.toList.countP fun n => n.status = .closed

/-- Whether an entry of the open list is up to date. -/
def isCurrent (s : Search) (v : Nat) (cost : Int) : Bool :=
  (s.node v).status = .waiting && (s.node v).cost = cost

/-- The least sum of cost and estimate of a waiting node. -/
def leastEstimate? (s : Search) : Option Int × Search :=
  let (f, frontier) := s.frontier.least? s.isCurrent
  (f, { s with frontier })

/-- Registers a state and gives its node. -/
def intern (s : Search) (state : State) : Search × Nat :=
  let ⟨table, nodes, edges, frontier, statistics⟩ := s
  match table.insert state with
  | (table, id, true) => (⟨table, nodes.push {}, edges, frontier, statistics⟩, nodeOf id)
  | (table, id, false) => (⟨table, nodes, edges, frontier, statistics⟩, nodeOf id)

/-- Counts a piece of work. -/
def count (s : Search) (f : Statistics → Statistics) : Search :=
  { s with statistics := f s.statistics }

/-- Lets a node wait with the given entries. -/
def enqueue (s : Search) (v : Nat) (n : SearchNode) : Search :=
  { s with
    nodes := s.nodes.setIfInBounds v { n with status := .waiting }
    frontier := s.frontier.push v (Cost.add n.cost n.estimate) n.cost }

/-- Meets a node for the first time: it waits with its estimate or is a dead end. -/
def open? (c : SearchSetting) (s : Search) (v : Nat) (cost : Int) (via : Option Nat) :
    Search × Option NegativeEstimate :=
  match s.stateOf? v with
  | none => (s.enqueue v { s.node v with cost, estimate := 0, parent := via }, none)
  | some state =>
    let s := s.count fun k => { k with evaluated := k.evaluated + 1 }
    match c.heuristic.estimate c.task state with
    | .deadEnd =>
      let s := s.count fun k => { k with deadEnds := k.deadEnds + 1 }
      let nodes := s.nodes.setIfInBounds v { s.node v with status := .deadEnd }
      ({ s with nodes }, none)
    | .value h =>
      if h < 0 then (s, some ⟨c.heuristic.name, h, c.task.describe state⟩)
      else (s.enqueue v { s.node v with cost, estimate := h, parent := via }, none)

/-- Tries an edge into a node at the given cost. -/
def relax (c : SearchSetting) (s : Search) (v : Nat) (cost : Int) (via : Nat) :
    Search × Option NegativeEstimate :=
  let n := s.node v
  match n.status with
  | .unseen => s.open? c v cost (some via)
  | .waiting =>
    if cost < n.cost then (s.enqueue v { n with cost, parent := some via }, none) else (s, none)
  | .closed =>
    if cost < n.cost && c.reopen && v != sink then
      let s := s.count fun k => { k with reopened := k.reopened + 1 }
      (s.enqueue v { n with cost, parent := some via }, none)
    else (s, none)
  | .deadEnd => (s, none)

/-- Tries recorded edges again from a node of the given cost. -/
def relaxAgain (c : SearchSetting) (cost : Int) : List Nat → Search → Search × Option NegativeEstimate
  | [], s => (s, none)
  | e :: rest, s =>
    match s.edges[e]? with
    | none => relaxAgain c cost rest s
    | some edge =>
      match s.relax c edge.target (Cost.add cost edge.cost) e with
      | (s, some fault) => (s, some fault)
      | (s, none) => relaxAgain c cost rest s

/-- Records an edge and gives its number. -/
def record (s : Search) (edge : Edge) : Search × Nat :=
  let e := s.edges.size
  ({ s with edges := s.edges.push edge }, e)

/-- Whether the state of a node is a goal. -/
def isGoalNode (c : SearchSetting) (s : Search) (v : Nat) : Bool :=
  (s.stateOf? v).any c.task.isGoal

/-- Records the edges of some operators out of a node, and says whether a goal state was met. -/
def generate (c : SearchSetting) (v : Nat) (cost : Int) (state : State) :
    List Nat → Search → Bool → Search × Bool × Option NegativeEstimate
  | [], s, goal => (s, goal, none)
  | op :: rest, s, goal =>
    let s := s.count fun k => { k with generated := k.generated + 1 }
    let (successor, trace) := c.canonical (c.task.apply state op)
    let s := if trace.isEmpty then s else s.count fun k => { k with pruned := k.pruned + 1 }
    let (s, target) := s.intern successor
    let price := (c.task.operator op).cost
    let (s, e) := s.record ⟨v, target, .operator op, price⟩
    let goal := goal || s.isGoalNode c target
    match s.relax c target (Cost.add cost price) e with
    | (s, some fault) => (s, goal, some fault)
    | (s, none) => generate c v cost state rest s goal

/-- Records the edge of a goal state to the sink. -/
def recordGoal (c : SearchSetting) (v : Nat) (cost : Int) (s : Search) :
    Search × Option NegativeEstimate :=
  let (s, e) := s.record ⟨v, sink, .goal, 0⟩
  s.relax c sink cost e

/-- Expands a node of the given cost. A node that was expanded before tries its edges again. -/
def expand (c : SearchSetting) (s : Search) (v : Nat) (cost : Int) : Search × StepOutcome :=
  if (s.node v).expanded then
    match relaxAgain c cost (s.graph.outgoing v) s with
    | (s, some fault) => (s, .failed fault)
    | (s, none) => (s, .expanded false)
  else
    match s.stateOf? v with
    | none => (s, .expanded false)
    | some state =>
      let s := { s with nodes := s.nodes.setIfInBounds v { s.node v with expanded := true } }
      match generate c v cost state (c.task.applicable state) s false with
      | (s, _, some fault) => (s, .failed fault)
      | (s, goal, none) =>
        if c.task.isGoal state then
          match recordGoal c v cost s with
          | (s, some fault) => (s, .failed fault)
          | (s, none) => (s, .expanded true)
        else (s, .expanded goal)

/-- Takes the first waiting node and expands it. -/
def step (c : SearchSetting) (s : Search) : Search × StepOutcome :=
  if c.stateLimit.any (· ≤ s.table.size) then (s, .full)
  else
    match s.frontier.pop? s.isCurrent with
    | (none, frontier) => ({ s with frontier }, .exhausted)
    | (some (v, _, _), frontier) =>
      let n := { s.node v with status := .closed }
      let s := { s with frontier, nodes := s.nodes.setIfInBounds v n }
      if v = sink then (s, .solved n.cost)
      else expand c (s.count fun k => { k with expanded := k.expanded + 1 }) v n.cost

/-- A search whose root waits. -/
def start (c : SearchSetting) : Except NegativeEstimate Search :=
  let (table, _, _) := (Numbering.empty : Numbering State).insert (c.canonical c.task.initial).1
  let s : Search := ⟨table, #[{}, {}], #[], {}, {}⟩
  match s.open? c root 0 none with
  | (_, some fault) => .error fault
  | (s, none) => .ok s

end Search

end RankedPlans
