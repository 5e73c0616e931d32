import RankedPlans.Sorting

/-!
Graphs with coloured vertices and labelled, undirected edges, and the vertex permutations that keep
colours and edges.
-/

namespace RankedPlans

structure ColoredGraph where
  colors : Array Nat
  /-- The neighbours of each vertex with the labels of the edges, in ascending order. -/
  adjacency : Array (List (Nat × Nat))
deriving DecidableEq, Repr

namespace ColoredGraph

/-- The lexicographic order of neighbours and labels. -/
def neighbourLe (a b : Nat × Nat) : Bool :=
  a.1 < b.1 || (a.1 == b.1 && a.2 ≤ b.2)

/-- Adds an edge to the neighbours of its two vertices. -/
def link (lists : Array (List (Nat × Nat))) (a b label : Nat) : Array (List (Nat × Nat)) :=
  (lists.modify a ((b, label) :: ·)).modify b ((a, label) :: ·)

/-- The graph with the given colours and edges. An edge that is given twice is one edge. -/
def ofEdges (colors : Array Nat) (edges : List (Nat × Nat × Nat)) : ColoredGraph :=
  let lists := edges.foldl (fun lists (a, b, label) => link lists a b label)
    (Array.replicate colors.size [])
  ⟨colors, lists.map fun list => (sortBy neighbourLe list).eraseReps⟩

/-- The number of vertices. -/
def size (g : ColoredGraph) : Nat :=
  g.colors.size

/-- The neighbours of a vertex. -/
def neighbours (g : ColoredGraph) (v : Nat) : List (Nat × Nat) :=
  g.adjacency.getD v []

def hasEdge (g : ColoredGraph) (a b label : Nat) : Bool :=
  (g.neighbours a).contains (b, label)

/-- Whether a map of the vertices keeps every colour and every edge. -/
def isAutomorphism (g : ColoredGraph) (image : Array Nat) : Bool :=
  image.size == g.size && (List.range g.size).all fun u =>
    let u' := image.getD u 0
    g.colors[u]? == g.colors[u']? &&
      (g.neighbours u).all fun (w, label) => g.hasEdge u' (image.getD w 0) label

end ColoredGraph

end RankedPlans
