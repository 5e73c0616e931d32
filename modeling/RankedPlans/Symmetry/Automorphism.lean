import RankedPlans.Symmetry.Refinement
import RankedPlans.Symmetry.UnionFind

/-!
Generators of the automorphism group of a coloured graph. The first path makes the smallest vertex of
the first shared colour a cell of its own, level by level, until all colours differ. Then, from the
deepest level up, the other vertices of each level's cell are tried as images of that vertex; those
that the automorphisms found so far reach are passed over.
-/

namespace RankedPlans

/-- A level of the first path: its colours, the shared colour and the vertex that was set apart. -/
structure PathLevel where
  colors : Array Nat
  cell : Nat
  base : Nat
deriving DecidableEq, Repr

/-- The first path: its levels from the top, and the colours at its end. -/
structure FirstPath where
  levels : List PathLevel
  leaf : Array Nat
deriving DecidableEq, Repr

/-- How many nodes were visited, and whether the search had to stop for want of more. -/
structure SearchEffort where
  visited : Nat := 0
  exhausted : Bool := false
deriving DecidableEq, Repr

/-- Automorphisms that were found. -/
structure AutomorphismSearch where
  generators : List (Array Nat)
  visited : Nat
  /-- Whether every level was searched. -/
  complete : Bool
deriving DecidableEq, Repr

namespace ColoredGraph

/-- Follows the first path. Every level adds a colour. -/
def firstPathWithin (g : ColoredGraph) : Nat → Array Nat → FirstPath
  | 0, colors => ⟨[], colors⟩
  | fuel + 1, colors =>
    match Coloring.targetCell? colors with
    | none => ⟨[], colors⟩
    | some cell =>
      let base := (Coloring.members colors cell).headD 0
      let below := g.firstPathWithin fuel (g.refine (Coloring.individualize colors base))
      { below with levels := ⟨colors, cell, base⟩ :: below.levels }

/-- The first path of the graph. -/
def firstPath (g : ColoredGraph) : FirstPath :=
  g.firstPathWithin g.size (g.refine g.colors)

/-- Sends each vertex to the vertex of its colour at the end of another path, if that is an
automorphism that moves a vertex. -/
def leafPermutation? (g : ColoredGraph) (reference leaf : Array Nat) : Option (Array Nat) :=
  let vertexOf := leaf.toList.zipIdx.foldl (fun vs (c, v) => vs.setIfInBounds c v)
    (Array.replicate leaf.size 0)
  let image := reference.map fun c => vertexOf.getD c 0
  if image = Array.range image.size then none
  else if g.isAutomorphism image then some image
  else none

/-- The first result of trying numbers in turn, as long as the effort allows. -/
def firstImage {α : Type} (attempt : Nat → SearchEffort → Option α × SearchEffort) :
    List Nat → SearchEffort → Option α × SearchEffort
  | [], effort => (none, effort)
  | u :: rest, effort =>
    let (found, effort) := attempt u effort
    if found.isSome || effort.exhausted then (found, effort) else firstImage attempt rest effort

/-- Refines colours and looks for a path that ends like the first one. Every node visited takes one of
the budget. -/
def descend (g : ColoredGraph) (path : FirstPath) (budget : Nat) :
    Nat → Array Nat → Nat → SearchEffort → Option (Array Nat) × SearchEffort
  | 0, _, _, effort => (none, effort)
  | fuel + 1, colors, depth, effort =>
    if budget ≤ effort.visited then (none, { effort with exhausted := true })
    else
      let effort := { effort with visited := effort.visited + 1 }
      let refined := g.refine colors
      let reference := (path.levels[depth]?.map PathLevel.colors).getD path.leaf
      if Coloring.cellSizes refined ≠ Coloring.cellSizes reference then (none, effort)
      else
        match Coloring.targetCell? refined with
        | none => (g.leafPermutation? path.leaf refined, effort)
        | some cell =>
          firstImage (fun u => g.descend path budget fuel (Coloring.individualize refined u) (depth + 1))
            (Coloring.members refined cell) effort

/-- Generators found so far and the orbits under them. -/
structure GeneratorSearch where
  generators : List (Array Nat)
  orbits : UnionFind
  effort : SearchEffort

/-- Tries a vertex as the image of the vertex that a level set apart. -/
def tryImage (g : ColoredGraph) (path : FirstPath) (budget depth : Nat) (level : PathLevel)
    (s : GeneratorSearch) (w : Nat) : GeneratorSearch :=
  if s.effort.exhausted || w == level.base then s
  else
    let (orbits, known) := s.orbits.same w level.base
    if known then { s with orbits }
    else
      let start := Coloring.individualize level.colors w
      match g.descend path budget (g.size + 1) start (depth + 1) s.effort with
      | (some image, effort) => ⟨s.generators ++ [image], orbits.unionImages image, effort⟩
      | (none, effort) => ⟨s.generators, orbits, effort⟩

/-- Tries all vertices of a level's cell. -/
def searchLevel (g : ColoredGraph) (path : FirstPath) (budget : Nat) (s : GeneratorSearch)
    (level : PathLevel × Nat) : GeneratorSearch :=
  (Coloring.members level.1.colors level.1.cell).foldl (g.tryImage path budget level.2 level.1) s

/-- Generators of the automorphism group, within a budget of nodes. -/
def findGenerators (g : ColoredGraph) (budget : Nat) : AutomorphismSearch :=
  let path := g.firstPath
  let final := path.levels.zipIdx.reverse.foldl (g.searchLevel path budget)
    ⟨[], .ofSize g.size, {}⟩
  ⟨final.generators, final.effort.visited, !final.effort.exhausted⟩

end ColoredGraph

end RankedPlans
