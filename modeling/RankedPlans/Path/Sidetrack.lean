import RankedPlans.Graph.ShortestPaths
import RankedPlans.Sorting

/-!
Sidetracks: the edges that are not the tree edge of their target. A path to a node is given by the
sidetracks that it takes, since between them it follows the tree; its cost is the distance of the node
and the sum of their detours.
-/

namespace RankedPlans

structure Sidetrack where
  edge : Nat
  source : Nat
  target : Nat
  /-- What it costs more to take this edge to its target than to follow the tree. -/
  delta : Int
  sourceDistance : Int
deriving DecidableEq, Repr, Inhabited

namespace Sidetrack

/-- Sidetracks are ordered by detour, then by distance, number of the source and number of the edge. -/
def le (a b : Sidetrack) : Bool :=
  a.delta < b.delta || (a.delta == b.delta &&
    (a.sourceDistance < b.sourceDistance || (a.sourceDistance == b.sourceDistance &&
      (a.source < b.source || (a.source == b.source && a.edge ≤ b.edge)))))

/-- The sidetrack of an edge between two nodes that have a distance, unless it is a tree edge. -/
def ofEdge? (tree : ShortestPathTree) (e : Nat) (edge : Edge) : Option Sidetrack :=
  match tree.distance? edge.source, tree.distance? edge.target with
  | some near, some far =>
    if tree.parent? edge.target = some e then none
    else some ⟨e, edge.source, edge.target, Cost.add near edge.cost - far, near⟩
  | _, _ => none

end Sidetrack

/-- The sidetracks into each node, in ascending order. -/
structure SidetrackTable where
  lists : Array (Array Sidetrack)
deriving Repr

namespace SidetrackTable

/-- The sidetracks of a graph and its tree. -/
def ofTree (g : Graph) (tree : ShortestPathTree) : SidetrackTable :=
  let found := g.edges.toList.zipIdx.filterMap fun (edge, e) => Sidetrack.ofEdge? tree e edge
  let lists := found.foldl (fun lists s => lists.modify s.target (s :: ·)) (Array.replicate g.nodes [])
  ⟨lists.map fun list => (sortBy Sidetrack.le list).toArray⟩

/-- The sidetracks into a node. -/
def incoming (t : SidetrackTable) (v : Nat) : Array Sidetrack :=
  t.lists.getD v #[]

/-- The number of all sidetracks. -/
def size (t : SidetrackTable) : Nat :=
  t.lists.foldl (fun n list => n + list.size) 0

end SidetrackTable

namespace ShortestPathTree

/-- The tree edges from an ancestor down to a node, before further edges. A tree path has fewer edges
than the graph has nodes, which bounds the number of steps. -/
def climb (g : Graph) (t : ShortestPathTree) (ancestor : Nat) : Nat → Nat → List Nat → List Nat
  | 0, _, after => after
  | fuel + 1, v, after =>
    if v = ancestor then after
    else
      match t.parent? v with
      | none => after
      | some e => climb g t ancestor fuel ((g.edges[e]?.map Edge.source).getD v) (e :: after)

/-- The tree edges from an ancestor down to a node. -/
def pathFrom (g : Graph) (t : ShortestPathTree) (ancestor v : Nat) : List Nat :=
  t.climb g ancestor g.nodes v []

/-- The edges of the path from the root to a node that takes the given sidetracks, of which the one
nearest to the node comes first. -/
def pathTo (g : Graph) (t : ShortestPathTree) (v : Nat) : List Sidetrack → List Nat
  | [] => t.pathFrom g t.root v
  | s :: rest => pathTo g t s.source rest ++ s.edge :: t.pathFrom g s.target v

end ShortestPathTree

end RankedPlans
