import RankedPlans.Cost

/-! Sums that stop at the ends of the range, and what becomes of them for costs that are not negative. -/

namespace RankedPlans.Cost

/-- A signed number of 64 bits. -/
def InRange (cost : Int) : Prop :=
  bottom ≤ cost ∧ cost ≤ top

theorem inRange_add (a b : Int) : InRange (add a b) := by
  simp only [InRange, add, bottom, top, int64Min, int64Max]
  omega

theorem inRange_zero : InRange 0 :=
  ⟨by decide, by decide⟩

theorem add_le {a b : Int} (h : 0 ≤ a + b) : add a b ≤ a + b := by
  simp only [add, bottom, top, int64Min, int64Max]
  omega

theorem add_mono {a a' b b' : Int} (ha : a ≤ a') (hb : b ≤ b') : add a b ≤ add a' b' := by
  simp only [add, bottom, top, int64Min, int64Max]
  omega

theorem le_add {a b : Int} (ha : a ≤ top) (hb : 0 ≤ b) : a ≤ add a b := by
  simp only [add, bottom, top, int64Min, int64Max] at *
  omega

theorem add_nonneg {a b : Int} (ha : 0 ≤ a) (hb : 0 ≤ b) : 0 ≤ add a b := by
  simp only [add, bottom, top, int64Min, int64Max]
  omega

/-- A sum that stops at the top may go on from where it stopped. -/
theorem add_min_top {a b : Int} (ha : 0 ≤ a) (hb : 0 ≤ b) :
    add (min top a) b = min top (a + b) := by
  simp only [add, bottom, top, int64Min, int64Max]
  omega

theorem add_zero {a : Int} (low : 0 ≤ a) (high : a ≤ top) : add a 0 = a := by
  simp only [add, bottom, top, int64Min, int64Max] at *
  omega

end RankedPlans.Cost
