import RankedPlans.Cost
import RankedPlans.Graph.Basic
import RankedPlans.Heap.PriorityQueue

/-!
Shortest paths from a root to all nodes of a graph, by settling nodes in ascending order of distance
and number. The tree keeps for each node its distance and the edge through which it was reached; of
several equally short edges the first one tried stays.
-/

namespace RankedPlans

/-- Distances and tree edges of a graph. -/
structure ShortestPathTree where
  root : Nat
  sink : Nat
  distances : Array (Option Int)
  parents : Array (Option Nat)
deriving DecidableEq, Repr

namespace ShortestPathTree

/-- The least cost of a path to a node. -/
def distance? (t : ShortestPathTree) (v : Nat) : Option Int :=
  t.distances[v]?.join

/-- The last edge of the tree path to a node. -/
def parent? (t : ShortestPathTree) (v : Nat) : Option Nat :=
  t.parents[v]?.join

/-- The least cost of a path from the root to the sink. -/
def optimalCost? (t : ShortestPathTree) : Option Int :=
  t.distance? t.sink

end ShortestPathTree

/-- A search for shortest paths that is under way. -/
structure PathSearch where
  distances : Array (Option Int)
  parents : Array (Option Nat)
  settled : Array Bool
  queue : PriorityQueue (Int × Nat) Unit

namespace PathSearch

/-- Only the root has a distance. -/
def start (nodes root : Nat) : PathSearch where
  distances := (Array.replicate nodes none).setIfInBounds root (some 0)
  parents := Array.replicate nodes none
  settled := Array.replicate nodes false
  queue := ({} : PriorityQueue (Int × Nat) Unit).push costThenNumber (0, root) ()

/-- Tries an edge out of a node that has just been settled at a distance. -/
def relax (distance : Int) (s : PathSearch) (e : Nat) (edge : Edge) : PathSearch :=
  let reached := Cost.add distance edge.cost
  let better :=
    match s.distances[edge.target]?.join with
    | none => true
    | some old => reached < old
  if better && !s.settled.getD edge.target false then
    { s with
      distances := s.distances.setIfInBounds edge.target (some reached)
      parents := s.parents.setIfInBounds edge.target (some e)
      queue := s.queue.push costThenNumber (reached, edge.target) () }
  else s

/-- Settles the nearest node that waits, unless it was settled before. -/
def settle (adjacency : Array (Array (Nat × Edge))) (s : PathSearch) (distance : Int) (v : Nat) :
    PathSearch :=
  let s := { s with queue := s.queue.pop costThenNumber }
  if s.settled.getD v false then s
  else
    (adjacency.getD v #[]).foldl (fun s (e, edge) => relax distance s e edge)
      { s with settled := s.settled.setIfInBounds v true }

/-- Settles nodes until none waits. Each edge lets at most one node wait again. -/
def run (adjacency : Array (Array (Nat × Edge))) : Nat → PathSearch → PathSearch
  | 0, s => s
  | fuel + 1, s =>
    match s.queue.peek? with
    | none => s
    | some ((distance, v), _) => run adjacency fuel (settle adjacency s distance v)

end PathSearch

/-- The tree of shortest paths from a root. -/
def Graph.shortestPathTree (g : Graph) (root sink : Nat) : ShortestPathTree :=
  let final := PathSearch.run g.adjacency (g.edges.size + 1) (PathSearch.start g.nodes root)
  ⟨root, sink, final.distances, final.parents⟩

end RankedPlans
