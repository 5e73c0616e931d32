import RankedPlans.World.Fault

/-!
Blocks on a table and a hand that holds one of them. Towers are listed from bottom to top. A goal
tower puts its lowest block on the table, each further block on the one before it, and nothing on its
highest block.
-/

namespace RankedPlans

structure BlocksWorld where
  id : String
  init : List (List String)
  goal : List (List String)
deriving DecidableEq, Repr

namespace BlocksWorld

/-- One block on another, to be turned around. -/
def swap : BlocksWorld :=
  ⟨"blocksworld_swap", [["A", "B"]], [["B", "A"]]⟩

/-- A tower of so many blocks, to be turned around. -/
def reverseTower (n : Nat) : BlocksWorld :=
  let blocks := (List.range n).map fun i => s!"b{i + 1}"
  ⟨s!"blocksworld_reverse_{n}", [blocks], [blocks.reverse]⟩

/-- The blocks of the initial towers. -/
def blocks (w : BlocksWorld) : List String :=
  w.init.flatten

/-- The first of some names that is among those before it. -/
def firstRepeated? (seen : List String) : List String → Option String
  | [] => none
  | b :: rest => if b ∈ seen then some b else firstRepeated? (b :: seen) rest

/-- The first goal block that is not in the initial towers or stands in the goal twice. -/
def goalFault? (w : BlocksWorld) (seen : List String) : List String → Option WorldFault
  | [] => none
  | b :: rest =>
    if b ∉ w.blocks then some (.strayGoalBlock w.id b)
    else if b ∈ seen then some (.repeatedGoalBlock w.id b)
    else goalFault? w (b :: seen) rest

/-- The first fault of the towers. -/
def fault? (w : BlocksWorld) : Option WorldFault :=
  ((firstRepeated? [] w.blocks).map (.repeatedBlock w.id)).or <|
    (w.goalFault? [] w.goal.flatten).or <| if w.blocks = [] then some (.noBlocks w.id) else none

/-- The atoms of a block: nothing is on it, it is on the table, it is held, it is on another. -/
def clear (x : String) : String := "clear " ++ x

def onTable (x : String) : String := "ontable " ++ x

def holding (x : String) : String := "holding " ++ x

def on (x y : String) : String := "on " ++ x ++ " " ++ y

def handEmpty : String := "handempty"

/-- Taking a block from the table and putting it down there. -/
def tableActions (x : String) : List Strips.Entry :=
  [.action ("pick-up " ++ x) 1 [clear x, onTable x, handEmpty] [holding x]
    [onTable x, clear x, handEmpty],
   .action ("put-down " ++ x) 1 [holding x] [clear x, handEmpty, onTable x] [holding x]]

/-- Putting a block onto another and taking it from there. -/
def stackActions (x y : String) : List Strips.Entry :=
  [.action ("stack " ++ x ++ " " ++ y) 1 [holding x, clear y] [clear x, handEmpty, on x y]
    [holding x, clear y],
   .action ("unstack " ++ x ++ " " ++ y) 1 [on x y, clear x, handEmpty] [holding x, clear y]
    [on x y, clear x, handEmpty]]

/-- The actions of every block, with itself and with every other block. -/
def entries (w : BlocksWorld) : List Strips.Entry :=
  .atom handEmpty :: w.blocks.flatMap fun x =>
    tableActions x ++ (w.blocks.filter (· ≠ x)).flatMap (stackActions x)

/-- Each block on the one before it, and nothing on the last one. -/
def stacked : List String → List String
  | [] => []
  | [top] => [clear top]
  | x :: y :: rest => on y x :: stacked (y :: rest)

/-- The atoms of a tower. -/
def towerAtoms : List String → List String
  | [] => []
  | bottom :: rest => onTable bottom :: stacked (bottom :: rest)

/-- The task of building the goal towers. -/
def task (w : BlocksWorld) : Except WorldFault Task :=
  match w.fault? with
  | some fault => .error fault
  | none =>
    (Strips.ofEntries w.entries (w.init.flatMap towerAtoms ++ [handEmpty])
      (w.goal.flatMap towerAtoms)).world

end BlocksWorld

end RankedPlans
