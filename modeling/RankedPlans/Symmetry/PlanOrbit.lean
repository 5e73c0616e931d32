import RankedPlans.Symmetry.Group
import Std.Data.TreeSet

/-!
The orbit of a plan under a group, walked breadth first and up to a limit. Images are told apart by a
key; with the plan itself as the key the walk gives the symmetric plans, and the least key met stands
for the whole orbit.
-/

namespace RankedPlans

/-- A walk over an orbit: the keys met, and the plans met with their keys. -/
structure OrbitWalk where
  seen : Std.TreeSet (List Nat)
  met : Array (Plan × List Nat)

namespace OrbitWalk

/-- Only the plan at the start has been met. -/
def start (encode : Plan → List Nat) (plan : Plan) : OrbitWalk where
  seen := (∅ : Std.TreeSet (List Nat)).insert (encode plan)
  met := #[(plan, encode plan)]

/-- Meets an image of a plan, unless its key is known or the limit is reached. -/
def meet (encode : Plan → List Nat) (limit : Nat) (plan : Plan) (w : OrbitWalk) (g : Generator) :
    OrbitWalk :=
  if limit ≤ w.seen.size then w
  else
    let image := g.mapPlan plan
    let key := encode image
    if w.seen.contains key then w else ⟨w.seen.insert key, w.met.push (image, key)⟩

/-- Meets the images of the plans met, from the plan of an index on. -/
def run (encode : Plan → List Nat) (limit : Nat) (generators : List Generator) :
    Nat → Nat → OrbitWalk → OrbitWalk
  | 0, _, w => w
  | fuel + 1, i, w =>
    match w.met[i]? with
    | none => w
    | some (plan, _) =>
      if limit ≤ w.seen.size then w
      else run encode limit generators fuel (i + 1) (generators.foldl (meet encode limit plan) w)

end OrbitWalk

namespace SymmetryGroup

/-- The images of a plan with distinct keys and their keys, without the plan itself. -/
def images (g : SymmetryGroup) (encode : Plan → List Nat) (plan : Plan) : List (Plan × List Nat) :=
  let movers := g.generators.toList.filter (·.movesOperators)
  if movers.isEmpty then []
  else
    (OrbitWalk.run encode g.orbitLimit movers g.orbitLimit 0 (.start encode plan)).met.toList.drop 1

/-- The least key of a plan and its images. -/
def planKey (g : SymmetryGroup) (encode : Plan → List Nat) (plan : Plan) : List Nat :=
  (g.images encode plan).foldl (fun best (_, key) => if key < best then key else best) (encode plan)

/-- Images of a plan that differ from it and from each other, no more than the limit. Only groups that
keep the initial state have any. -/
def symmetricPlans (g : SymmetryGroup) (plan : Plan) (limit : Option Nat) : List Plan :=
  if g.fixesInitial && limit != some 0 then
    let images := (g.images id plan).map (·.1)
    match limit with
    | some n => images.take n
    | none => images
  else []

end SymmetryGroup

end RankedPlans
