import RankedPlans.World.Fault

/-!
A hall, a closet and a room behind a locked door. The key lies in the closet or nowhere, and without
it there is no plan.
-/

namespace RankedPlans

structure LockedDoor where
  /-- Whether the key lies in the closet. -/
  key : Bool
deriving DecidableEq, Repr

namespace LockedDoor

def id (w : LockedDoor) : String :=
  if w.key then "locked_door_key" else "locked_door"

def entries (w : LockedDoor) : List Strips.Entry :=
  [.atom "at hall", .atom "at closet", .atom "at room", .atom "have key",
   .action "walk hall closet" 1 ["at hall"] ["at closet"] ["at hall"],
   .action "walk closet hall" 1 ["at closet"] ["at hall"] ["at closet"],
   .action "unlock-and-enter" 2 ["at hall", "have key"] ["at room"] ["at hall"]] ++
  if w.key then [.action "take key" 1 ["at closet"] ["have key"] []] else []

/-- The task of entering the room from the hall. -/
def task (w : LockedDoor) : Except WorldFault Task :=
  (Strips.ofEntries w.entries ["at hall"] ["at room"]).world

end LockedDoor

end RankedPlans
