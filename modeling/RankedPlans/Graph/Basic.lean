/-!
Directed graphs with labelled, weighted edges. Nodes and edges are numbered; an edge stands for an
operator or leads from a goal state to the one sink.
-/

namespace RankedPlans

/-- What an edge stands for. -/
inductive EdgeLabel where
  | operator (op : Nat)
  | goal
deriving DecidableEq, Repr, Inhabited

structure Edge where
  source : Nat
  target : Nat
  label : EdgeLabel
  cost : Int
deriving DecidableEq, Repr, Inhabited

/-- The number of nodes, and the edges in the order in which they were recorded. -/
structure Graph where
  nodes : Nat
  edges : Array Edge
deriving DecidableEq, Repr, Inhabited

namespace Graph

/-- The numbers of the edges out of a node, in ascending order. -/
def outgoing (g : Graph) (v : Nat) : List Nat :=
  (List.range g.edges.size).filter fun e => g.edges[e]?.any (·.source == v)

/-- The edges out of every node. -/
def adjacency (g : Graph) : Array (Array (Nat × Edge)) :=
  g.edges.toList.zipIdx.foldl (fun lists (edge, e) => lists.modify edge.source (·.push (e, edge)))
    (Array.replicate g.nodes #[])

/-- The edges follow each other from the first node to the second. -/
inductive Walk (g : Graph) : Nat → List Nat → Nat → Prop where
  | nil (v : Nat) : Walk g v [] v
  | cons {e w : Nat} {edge : Edge} {es : List Nat} : g.edges[e]? = some edge →
      Walk g edge.target es w → Walk g edge.source (e :: es) w

/-- The sum of the costs of some edges. -/
def cost (g : Graph) : List Nat → Int
  | [] => 0
  | e :: rest => (g.edges[e]?.map Edge.cost).getD 0 + cost g rest

end Graph

end RankedPlans
