import RankedPlans.Number.Bounds

/-!
Sums of costs in the range of signed 64-bit integers: a sum beyond an end of the range is that end.
-/

namespace RankedPlans.Cost

/-- The greatest cost. -/
def top : Int := int64Max

/-- The least cost. -/
def bottom : Int := int64Min

/-- The sum, moved to the nearer end of the range if it lies outside. -/
def add (a b : Int) : Int :=
  max bottom (min top (a + b))

theorem add_eq {a b : Int} (low : bottom ≤ a + b) (high : a + b ≤ top) : add a b = a + b := by
  simp only [add] at *
  omega

theorem add_comm (a b : Int) : add a b = add b a := by
  simp [add, Int.add_comm]

theorem add_le_top (a b : Int) : add a b ≤ top := by
  simp only [add, bottom, top, int64Min, int64Max]
  omega

end RankedPlans.Cost
