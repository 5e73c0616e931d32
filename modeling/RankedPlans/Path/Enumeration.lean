import RankedPlans.Heap.Leftist
import RankedPlans.Path.Sidetrack

/-!
The paths from the root to the sink of a graph, cheapest first and one at a time. For each node there is
a heap of the cheapest sidetracks into the nodes on its tree path, built when it is first needed. A
path ends in a position of such a heap; its successors exchange its last sidetrack for the next ones
in order, or add a sidetrack before it.
-/

namespace RankedPlans

/-- A heap of nodes by their cheapest incoming sidetrack. -/
abbrev SidetrackHeap := LeftistHeap Sidetrack Nat

/-- A path that waits: the sidetracks that it keeps, the last of which was added last, and its further
sidetrack, which is the one of a position in the list of the node at the top of a heap. -/
structure PendingPath where
  kept : List Sidetrack
  heap : SidetrackHeap
  position : Nat
  /-- The sum of the detours. -/
  detour : Int
deriving Inhabited

/-- A path by its sidetracks, of which the one nearest to the sink comes first. -/
structure Candidate where
  cost : Int
  /-- How much more it costs than the cheapest path. -/
  detour : Int
  sidetracks : List Sidetrack
deriving DecidableEq, Repr, Inhabited

/-- An enumeration under way. -/
structure PathEnumeration where
  graph : Graph
  tree : ShortestPathTree
  sidetracks : SidetrackTable
  /-- The heap of each node that was needed so far. -/
  heaps : Array (Option SidetrackHeap)
  /-- How many heap nodes were made. -/
  heapNodes : Nat
  queue : PriorityQueue (Int × Nat) PendingPath
  /-- How many paths were ever waiting. -/
  pushed : Nat
  started : Bool

namespace PathEnumeration

/-- Nothing has been enumerated. -/
def start (graph : Graph) (tree : ShortestPathTree) : PathEnumeration where
  graph := graph
  tree := tree
  sidetracks := .ofTree graph tree
  heaps := Array.replicate graph.nodes none
  heapNodes := 0
  queue := {}
  pushed := 0
  started := false

/-- The cost of the next path. -/
def nextCost? (p : PathEnumeration) : Option Int := do
  let optimal ← p.tree.optimalCost?
  if p.started then
    let ((detour, _), _) ← p.queue.peek?
    return optimal + detour
  else return optimal

/-- Remembers the heap of a node: that of its parent, with the cheapest sidetrack into it. -/
def extendHeap (p : PathEnumeration) (v : Nat) (above : SidetrackHeap) :
    PathEnumeration × SidetrackHeap :=
  match (p.sidetracks.incoming v)[0]? with
  | none => ({ p with heaps := p.heaps.setIfInBounds v (some above) }, above)
  | some first =>
    let (heap, next) := above.insert Sidetrack.le p.heapNodes first v
    ({ p with heaps := p.heaps.setIfInBounds v (some heap), heapNodes := next }, heap)

/-- The heap of a node, built from the nearest node above it that has one. -/
def heapWithin (p : PathEnumeration) : Nat → Nat → PathEnumeration × SidetrackHeap
  | 0, _ => (p, .nil)
  | fuel + 1, v =>
    match p.heaps[v]?.join with
    | some heap => (p, heap)
    | none =>
      match p.tree.parent? v with
      | none => p.extendHeap v .nil
      | some e =>
        let (p, above) := p.heapWithin fuel ((p.graph.edges[e]?.map Edge.source).getD v)
        p.extendHeap v above

/-- The heap of a node. -/
def heapOf (p : PathEnumeration) (v : Nat) : PathEnumeration × SidetrackHeap :=
  p.heapWithin (p.graph.nodes + 1) v

/-- Lets a path wait. -/
def push (p : PathEnumeration) (path : PendingPath) : PathEnumeration :=
  { p with
    queue := p.queue.push costThenNumber (path.detour, p.pushed) path
    pushed := p.pushed + 1 }

/-- The sidetrack at a position of the list of the node at the top of a heap. -/
def sidetrackAt? (p : PathEnumeration) (heap : SidetrackHeap) (position : Nat) : Option Sidetrack :=
  match heap with
  | .nil => none
  | .node _ _ _ owner _ _ => (p.sidetracks.incoming owner)[position]?

/-- Lets the path wait that adds the sidetrack at the top of a heap. -/
def pushTop (p : PathEnumeration) (kept : List Sidetrack) (detour : Int) (heap : SidetrackHeap) :
    PathEnumeration :=
  match heap.key? with
  | none => p
  | some top => p.push ⟨kept, heap, 0, detour + top.delta⟩

/-- Lets the successors of a path wait whose last sidetrack is `last`. -/
def pushSuccessors (p : PathEnumeration) (path : PendingPath) (last : Sidetrack) :
    PathEnumeration :=
  let base := path.detour - last.delta
  let p :=
    if path.position = 0 then
      path.heap.children.foldl (fun p child => p.pushTop path.kept base child) p
    else p
  let p :=
    match p.sidetrackAt? path.heap (path.position + 1) with
    | some next =>
      p.push { path with position := path.position + 1, detour := base + next.delta }
    | none => p
  let (p, heap) := p.heapOf last.source
  p.pushTop (path.kept ++ [last]) path.detour heap

/-- The next path. -/
def next? (p : PathEnumeration) : Option (Candidate × PathEnumeration) := do
  let optimal ← p.tree.optimalCost?
  if p.started then
    let ((detour, _), path) ← p.queue.peek?
    let last ← p.sidetrackAt? path.heap path.position
    let p := { p with queue := p.queue.pop costThenNumber }
    return (⟨optimal + detour, detour, path.kept ++ [last]⟩, p.pushSuccessors path last)
  else
    let (p, heap) := { p with started := true }.heapOf p.tree.sink
    return (⟨optimal, 0, []⟩, p.pushTop [] 0 heap)

/-- The edges of a path, from the root on. -/
def edges (p : PathEnumeration) (c : Candidate) : List Nat :=
  p.tree.pathTo p.graph p.tree.sink c.sidetracks

end PathEnumeration

end RankedPlans
