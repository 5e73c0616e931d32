import RankedPlans.Heuristic.Max
import RankedPlans.Text.Quoted

/-!
The choice of a heuristic by name.
-/

namespace RankedPlans

/-- The heuristics that can be chosen. -/
inductive HeuristicChoice where
  | blind
  | max
deriving DecidableEq, Repr

/-- A name that no heuristic has. -/
structure UnknownHeuristic where
  name : String
deriving DecidableEq, Repr

/-- The wording of the fault. -/
def UnknownHeuristic.message (e : UnknownHeuristic) : String :=
  "unknown heuristic " ++ Text.quoted e.name ++ " (expected \"blind\" or \"hmax\")"

namespace HeuristicChoice

/-- The heuristic that is chosen. -/
def heuristic : HeuristicChoice → Heuristic
  | blind => .blind
  | max => .max

/-- The name of the heuristic. -/
def name (c : HeuristicChoice) : String :=
  c.heuristic.name

/-- The name of the choice in records. -/
def recordName : HeuristicChoice → String
  | blind => "blind"
  | max => "max"

/-- The choice that goes by a name, as it is shown or recorded. -/
def parse (text : String) : Except UnknownHeuristic HeuristicChoice :=
  if text = "blind" then .ok blind
  else if text = "hmax" ∨ text = "max" then .ok max
  else .error ⟨text⟩

end HeuristicChoice

end RankedPlans
