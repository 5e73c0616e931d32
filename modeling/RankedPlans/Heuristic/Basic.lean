import RankedPlans.Task.Execution

/-!
Estimates of the cost that is left from a state to a goal. A search finds cheapest plans first if the
estimates never exceed that cost.
-/

namespace RankedPlans

/-- What a heuristic says of a state. -/
inductive Estimate where
  /-- A lower bound of the cost that is left. -/
  | value (h : Int)
  /-- No goal can be reached. -/
  | deadEnd
deriving DecidableEq, Repr

/-- A named rule of estimates. -/
structure Heuristic where
  name : String
  estimate : Task → State → Estimate

namespace Heuristic

/-- Zero on goal states and the least operator cost elsewhere. -/
def blind : Heuristic where
  name := "blind"
  estimate t s := .value (if t.isGoal s then 0 else t.minOperatorCost)

/-- The estimate listed first for a state, and one estimate for all others. -/
def ofTable (name : String) (default : Estimate) (entries : List (State × Estimate)) :
    Heuristic where
  name := name
  estimate _ s := (entries.lookup s).getD default

end Heuristic

end RankedPlans
