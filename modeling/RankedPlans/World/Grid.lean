import RankedPlans.World.Fault

/-!
A robot on a rectangular grid that walks from the first cell of the first row to the last cell of the
last row. Walls remove cells, and every move to a neighbouring cell costs one.
-/

namespace RankedPlans

structure Grid where
  width : Nat
  height : Nat
  walls : List (Nat × Nat) := []
deriving DecidableEq, Repr

namespace Grid

/-- The size and the walls in the order in which they were put up. -/
def id (g : Grid) : String :=
  g.walls.foldl (fun id wall => id ++ s!"_w{wall.1}_{wall.2}") s!"grid_{g.width}x{g.height}"

/-- Whether a cell lies in the grid and has no wall. -/
def isOpen (g : Grid) (cell : Nat × Nat) : Bool :=
  cell.1 < g.width && cell.2 < g.height && !g.walls.contains cell

/-- The open cells to the right, to the left, above and below. -/
def neighbours (g : Grid) (cell : Nat × Nat) : List (Nat × Nat) :=
  let right := [(cell.1 + 1, cell.2)]
  let left := if 0 < cell.1 then [(cell.1 - 1, cell.2)] else []
  let above := [(cell.1, cell.2 + 1)]
  let below := if 0 < cell.2 then [(cell.1, cell.2 - 1)] else []
  (right ++ left ++ above ++ below).filter g.isOpen

/-- The open cells row by row. -/
def cells (g : Grid) : List (Nat × Nat) :=
  ((List.range g.height).flatMap fun y => (List.range g.width).map fun x => (x, y)).filter g.isOpen

/-- The name of the atom that the robot is at a cell. -/
def position (cell : Nat × Nat) : String :=
  s!"at {cell.1}_{cell.2}"

/-- The move between two cells. -/
def move (start target : Nat × Nat) : Strips.Entry :=
  .action s!"move {start.1}_{start.2} {target.1}_{target.2}" 1
    [position start] [position target] [position start]

/-- The position of each open cell, with the moves out of it. -/
def entries (g : Grid) : List Strips.Entry :=
  g.cells.flatMap fun cell => .atom (position cell) :: (g.neighbours cell).map (move cell)

/-- The task of reaching the target. -/
def task (g : Grid) : Except WorldFault Task :=
  let start := (0, 0)
  let target := (g.width - 1, g.height - 1)
  if g.width = 0 ∨ g.height = 0 then .error (.noCells g.id)
  else if !g.isOpen start || !g.isOpen target then .error (.walledEnd g.id)
  else (Strips.ofEntries g.entries [position start] [position target]).world

end Grid

end RankedPlans
