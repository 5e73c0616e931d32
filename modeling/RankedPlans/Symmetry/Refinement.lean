import RankedPlans.Symmetry.ColoredGraph

/-!
Refinement of vertex colours. Colours are ranks of keys that do not depend on the numbering of the
vertices, so vertices that an automorphism exchanges keep equal colours.
-/

namespace RankedPlans

/-- The lexicographic order of keys. -/
def keyLe : List Nat → List Nat → Bool
  | [], _ => true
  | _ :: _, [] => false
  | a :: as, b :: bs => a < b || (a == b && keyLe as bs)

/-- Ranks the vertices of keys in ascending order, where so many keys have gone before. -/
def rankAscending : Nat → List (List Nat × Nat) → Array Nat → Array Nat
  | _, [], ranks => ranks
  | rank, [(_, v)], ranks => ranks.setIfInBounds v rank
  | rank, (a, v) :: (b, w) :: rest, ranks =>
    rankAscending (if a = b then rank else rank + 1) ((b, w) :: rest) (ranks.setIfInBounds v rank)

/-- Replaces each key by the number of distinct smaller keys. -/
def denseRanks (keys : List (List Nat)) : Array Nat :=
  rankAscending 0 (sortBy (fun a b => keyLe a.1 b.1) keys.zipIdx) (Array.replicate keys.length 0)

namespace Coloring

/-- One more than the greatest colour. -/
def count (colors : Array Nat) : Nat :=
  colors.foldl (fun n c => max n (c + 1)) 0

/-- The number of vertices of each colour. -/
def cellSizes (colors : Array Nat) : Array Nat :=
  colors.foldl (fun sizes c => sizes.modify c (· + 1)) (Array.replicate (count colors) 0)

/-- The vertices of a colour, in ascending order. -/
def members (colors : Array Nat) (color : Nat) : List Nat :=
  (List.range colors.size).filter fun v => colors[v]? == some color

/-- The first colour of more than one vertex. -/
def targetCell? (colors : Array Nat) : Option Nat :=
  (cellSizes colors).findIdx? (1 < ·)

/-- Gives a vertex a colour of its own just below that of the vertices it shared one with. -/
def individualize (colors : Array Nat) (v : Nat) : Array Nat :=
  denseRanks (colors.toList.zipIdx.map fun (c, u) => [c, if u = v then 0 else 1])

end Coloring

namespace ColoredGraph

/-- A colour with the labels and colours of the neighbours, in ascending order. Label and colour are one
number, as there are no more colours than vertices. -/
def signature (g : ColoredGraph) (colors : Array Nat) (v : Nat) : List Nat :=
  let around := (g.neighbours v).map fun (w, label) => label * colors.size + colors.getD w 0
  colors.getD v 0 :: sortBy (fun a b => a ≤ b) around

/-- One round: vertices of one colour stay together if their neighbours look alike. A vertex that is alone
with its colour needs no look at its neighbours. -/
def refineOnce (g : ColoredGraph) (colors : Array Nat) : Array Nat :=
  let sizes := Coloring.cellSizes colors
  denseRanks <| (List.range g.adjacency.size).map fun v =>
    let c := colors.getD v 0
    if sizes.getD c 0 = 1 then [c] else g.signature colors v

/-- Rounds until the number of colours stays the same. -/
def refineWithin (g : ColoredGraph) : Nat → Array Nat → Array Nat
  | 0, colors => colors
  | fuel + 1, colors =>
    let next := g.refineOnce colors
    if Coloring.count next = Coloring.count colors then next else g.refineWithin fuel next

/-- The coarsest colouring below the given one in which vertices of one colour have equally many
neighbours of each label and colour. Every round but the last adds a colour. -/
def refine (g : ColoredGraph) (colors : Array Nat) : Array Nat :=
  g.refineWithin (colors.size + 1) (denseRanks (colors.toList.map fun c => [c]))

end ColoredGraph

end RankedPlans
