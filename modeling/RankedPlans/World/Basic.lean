import RankedPlans.World.Blocks
import RankedPlans.World.Grid
import RankedPlans.World.Gripper
import RankedPlans.World.LockedDoor

/-!
The worlds that come with the library, each with a name and the task it describes.
-/

namespace RankedPlans

inductive World where
  | grid (g : Grid)
  | blocks (w : BlocksWorld)
  | gripper (g : Gripper)
  | lockedDoor (w : LockedDoor)
deriving DecidableEq, Repr

namespace World

/-- The name of a world. -/
def id : World → String
  | grid g => g.id
  | blocks w => w.id
  | gripper g => g.id
  | lockedDoor w => w.id

/-- The task that a world describes. -/
def task : World → Except WorldFault Task
  | grid g => g.task
  | blocks w => w.task
  | gripper g => g.task
  | lockedDoor w => w.task

end World

end RankedPlans
