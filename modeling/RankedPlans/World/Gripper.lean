import RankedPlans.World.Fault

/-!
A robot with two hands that carries balls from one room to another. The balls are alike and so are
the hands.
-/

namespace RankedPlans

structure Gripper where
  balls : Nat
deriving DecidableEq, Repr

namespace Gripper

def id (g : Gripper) : String :=
  s!"gripper_{g.balls}"

def rooms : List String := ["rooma", "roomb"]

def hands : List String := ["left", "right"]

def ballNames (g : Gripper) : List String :=
  (List.range g.balls).map fun i => s!"ball{i + 1}"

/-- The cost of a cheapest plan: a pick and a drop for each ball, and for each trip with two balls, or
with the last one, a move and the way back from the trip before. A number of balls beyond the greatest
cost counts as a fourth of that. -/
def optimalCost (balls : Nat) : Int :=
  let n : Int := if balls ≤ int64Max then balls else int64Max / 4
  if n = 0 then 0
  else
    let trips := (n + 1) / 2
    2 * n + trips + (trips - 1)

def robotAt (room : String) : String := "at-robby " ++ room

def ballAt (ball room : String) : String := "at " ++ ball ++ " " ++ room

def free (hand : String) : String := "free " ++ hand

def carry (ball hand : String) : String := "carry " ++ ball ++ " " ++ hand

/-- The moves between different rooms. -/
def moves : List Strips.Entry :=
  rooms.flatMap fun start => (rooms.filter (· ≠ start)).map fun target =>
    .action ("move " ++ start ++ " " ++ target) 1 [robotAt start] [robotAt target] [robotAt start]

/-- Picking up a ball in a room with a hand, and dropping it there. -/
def handle (ball room hand : String) : List Strips.Entry :=
  let name := ball ++ " " ++ room ++ " " ++ hand
  [.action ("pick " ++ name) 1 [ballAt ball room, robotAt room, free hand] [carry ball hand]
    [ballAt ball room, free hand],
   .action ("drop " ++ name) 1 [carry ball hand, robotAt room] [ballAt ball room, free hand]
    [carry ball hand]]

/-- The moves, then what can be done with each ball in each room with each hand. -/
def entries (g : Gripper) : List Strips.Entry :=
  moves ++ g.ballNames.flatMap fun ball => rooms.flatMap fun room => hands.flatMap (handle ball room)

/-- The task of bringing every ball to the second room. -/
def task (g : Gripper) : Except WorldFault Task :=
  if g.balls = 0 then .error (.noBalls g.id)
  else
    let init := robotAt "rooma" :: hands.map free ++ g.ballNames.map (ballAt · "rooma")
    (Strips.ofEntries g.entries init (g.ballNames.map (ballAt · "roomb"))).world

end Gripper

end RankedPlans
