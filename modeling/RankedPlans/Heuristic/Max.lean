import RankedPlans.Cost
import RankedPlans.Heuristic.Basic

/-!
The heuristic `hmax`. Deletions are ignored and a set of facts costs as much as its costliest member;
the cost of each fact is the least one under which no operator makes a fact cheaper. The costs of all
facts stand in one array, by `Task.valueOffsets`.
-/

namespace RankedPlans.Heuristic.Max

/-- The cost of a fact that cannot be reached; sums of costs stop there. -/
def unreached : Nat := Cost.top.toNat

/-- Where the cost of a fact stands. -/
def slot (offsets : Array Nat) (f : Fact) : Nat :=
  offsets.getD f.var 0 + f.value

/-- The cost of the costliest of some facts. -/
def costliest (offsets : Array Nat) (costs : Array Nat) (facts : List Fact) : Nat :=
  facts.foldl (fun c f => max c (costs.getD (slot offsets f) unreached)) 0

/-- The facts of the state cost nothing, and all others are unreached. -/
def initialCosts (offsets : Array Nat) (s : State) : Array Nat :=
  s.toList.zipIdx.foldl (fun costs (value, var) => costs.setIfInBounds (slot offsets ⟨var, value⟩) 0)
    (Array.replicate (offsets.back?.getD 0) unreached)

/-- The effects of an operator cost at most its preconditions and its own cost. An operator whose
preconditions are unreached makes no fact cheaper. -/
def relax (offsets : Array Nat) (costs : Array Nat) (o : Operator) : Array Nat :=
  let needed := costliest offsets costs o.preconditions
  if needed = unreached then costs
  else
    let reach := min unreached (needed + o.cost.toNat)
    o.effects.foldl (fun costs f => costs.modify (slot offsets f) (min reach)) costs

/-- One round over all operators. -/
def round (t : Task) (offsets costs : Array Nat) : Array Nat :=
  t.operators.foldl (relax offsets) costs

/-- Rounds until the costs stay as they are. -/
def settle (t : Task) (offsets : Array Nat) : Nat → Array Nat → Array Nat
  | 0, costs => costs
  | fuel + 1, costs =>
    let next := round t offsets costs
    if next = costs then costs else settle t offsets fuel next

/-- The settled costs from a state. A round that changes the costs lowers their sum, so the sum bounds
the number of rounds. -/
def settledCosts (t : Task) (s : State) : Array Nat :=
  let costs := initialCosts t.valueOffsets s
  settle t t.valueOffsets (costs.foldl (· + ·) 1) costs

/-- The cost of the costliest fact of the goal. -/
def estimate (t : Task) (s : State) : Estimate :=
  let h := costliest t.valueOffsets (settledCosts t s) t.goal
  if h = unreached then .deadEnd else .value h

end RankedPlans.Heuristic.Max

namespace RankedPlans.Heuristic

/-- The heuristic that takes the costliest fact of the goal when deletions are ignored. -/
def max : Heuristic := ⟨"hmax", Max.estimate⟩

end RankedPlans.Heuristic
