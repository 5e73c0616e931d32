import RankedPlans.Plan.Key
import RankedPlans.Plan.Reordering
import RankedPlans.Symmetry.PlanOrbit

/-!
The selection of plans: of those with one key the first that is offered stays. An accepted plan brings
its reorderings along, and then the symmetric images of itself and of these, as long as there is room.
-/

namespace RankedPlans

/-- A plan and its cost. -/
structure CostedPlan where
  cost : Int
  plan : Plan
deriving DecidableEq, Repr, Inhabited

/-- What a selection goes by. -/
structure SelectionRule where
  task : Task
  key : PlanKey
  /-- Plans that are images of each other under this group count as the same. -/
  merge : Option SymmetryGroup
  /-- Images under this group are offered too. -/
  extend : Option SymmetryGroup
  /-- Reorderings are offered too, within so many visited beginnings. -/
  reorderNodes : Option Nat
  /-- The greatest number of plans. -/
  limit : Option Nat

/-- The plans kept so far. -/
structure Selection where
  keys : Std.TreeSet (List Nat) := ∅
  plans : Array CostedPlan := #[]
  /-- How many plans were dropped for their key. -/
  duplicates : Nat := 0

namespace SelectionRule

/-- The key of a plan, for its whole orbit if plans are merged. -/
def keyOf (r : SelectionRule) (plan : Plan) : List Nat :=
  match r.merge with
  | some g => g.planKey r.key.encode plan
  | none => r.key.encode plan

end SelectionRule

namespace Selection

/-- The number of plans kept. -/
def size (s : Selection) : Nat :=
  s.plans.size

/-- Whether as many plans are kept as may be. -/
def isFull (s : Selection) (r : SelectionRule) : Bool :=
  r.limit.any (· ≤ s.size)

/-- How many more plans may be kept. -/
def room (s : Selection) (r : SelectionRule) : Option Nat :=
  r.limit.map (· - s.size)

/-- Keeps a plan if there is room and its key is new, and says whether it was kept. -/
def insert (s : Selection) (r : SelectionRule) (p : CostedPlan) : Selection × Bool :=
  if s.isFull r then (s, false)
  else
    let key := r.keyOf p.plan
    if s.keys.contains key then ({ s with duplicates := s.duplicates + 1 }, false)
    else ({ s with keys := s.keys.insert key, plans := s.plans.push p }, true)

/-- Inserts plans of one cost in turn. -/
def insertAll (s : Selection) (r : SelectionRule) (cost : Int) (plans : List Plan) : Selection :=
  plans.foldl (fun s plan => (s.insert r ⟨cost, plan⟩).1) s

/-- Offers a plan and what it brings along, and says whether the plan was kept. -/
def offer (s : Selection) (r : SelectionRule) (p : CostedPlan) : Selection × Bool :=
  match s.insert r p with
  | (s, false) => (s, false)
  | (s, true) =>
    let reordered :=
      match r.reorderNodes with
      | some nodes => r.task.reorderings ⟨nodes, s.room r⟩ p.plan
      | none => []
    let s := s.insertAll r p.cost reordered
    match r.extend with
    | none => (s, true)
    | some g =>
      ((p.plan :: reordered).foldl (fun s source =>
        s.insertAll r p.cost (g.symmetricPlans source (s.room r))) s, true)

end Selection

end RankedPlans
