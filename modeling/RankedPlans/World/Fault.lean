import RankedPlans.Task.Strips

/-!
Reasons why the parameters of a world describe no task.
-/

namespace RankedPlans

inductive WorldFault where
  | noCells (world : String)
  | walledEnd (world : String)
  | noBalls (world : String)
  | noBlocks (world : String)
  | repeatedBlock (world block : String)
  | strayGoalBlock (world block : String)
  | repeatedGoalBlock (world block : String)
  | task (fault : Fault)
deriving DecidableEq, Repr

namespace WorldFault

/-- The wording of a fault. -/
def message : WorldFault → String
  | noCells world => s!"world {world}: grid has no cells"
  | walledEnd world => s!"world {world}: start or target cell is walled"
  | noBalls world => s!"world {world}: at least one ball is required"
  | noBlocks world => s!"world {world}: no blocks"
  | repeatedBlock world block => s!"world {world}: block {block} appears twice in the initial towers"
  | strayGoalBlock world block => s!"world {world}: goal block {block} is not in the initial towers"
  | repeatedGoalBlock world block => s!"world {world}: block {block} appears twice in the goal towers"
  | task fault => fault.message

end WorldFault

/-- The task of a description by names. -/
def Strips.world (b : Strips) : Except WorldFault Task :=
  b.build.mapError .task

end RankedPlans
