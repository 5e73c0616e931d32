import Mathlib.Algebra.GroupWithZero.Nat
import RankedPlans.Proofs.Task.State

/-! How the values of all variables are numbered through: the first value of a variable comes after those of
all variables before it, so the number of every fact is below the total. -/

namespace RankedPlans.Task

variable {t : Task} {f : Fact} {v : Nat}

/-- The number of values of the first variables. -/
def valuesBefore (vars : List Variable) (i : Nat) : Nat :=
  ((vars.take i).map fun v => v.values.length).sum

theorem getElem?_foldl_offsets (vars : List Variable) (offsets : Array Nat) (hne : 0 < offsets.size) :
    let all := vars.foldl (fun offsets v => offsets.push (offsets.back?.getD 0 + v.values.length)) offsets
    all.size = offsets.size + vars.length ∧ (∀ i < offsets.size, all[i]? = offsets[i]?) ∧
      ∀ i ≤ vars.length,
        all[offsets.size - 1 + i]? = some (offsets.back?.getD 0 + valuesBefore vars i) := by
  induction vars generalizing offsets with
  | nil =>
    refine ⟨rfl, fun _ _ => rfl, fun i hi => ?_⟩
    obtain rfl : i = 0 := by simpa using hi
    simp [valuesBefore, Array.back?_eq_getElem?, Array.getElem?_eq_getElem (show offsets.size - 1 <
      offsets.size by omega)]
  | cons v vars ih =>
    obtain ⟨hsize, hframe, hall⟩ := ih (offsets.push (offsets.back?.getD 0 + v.values.length)) (by simp)
    simp only [List.foldl_cons, Array.size_push, Array.back?_push, Option.getD_some] at hsize hframe hall ⊢
    have hframe' : ∀ i < offsets.size, (vars.foldl (fun offsets v =>
        offsets.push (offsets.back?.getD 0 + v.values.length))
        (offsets.push (offsets.back?.getD 0 + v.values.length)))[i]? = offsets[i]? := by
      intro i hi
      rw [hframe i (by omega), Array.getElem?_push, if_neg (by omega)]
    refine ⟨by rw [hsize, List.length_cons]; omega, hframe', fun i hi => ?_⟩
    cases i with
    | zero =>
      rw [hframe' _ (by omega)]
      simp [valuesBefore, Array.back?_eq_getElem?, Array.getElem?_eq_getElem (show offsets.size - 1 <
        offsets.size by omega)]
    | succ i =>
      have := hall i (by simpa using hi)
      rw [show offsets.size - 1 + (i + 1) = offsets.size + 1 - 1 + i by omega, this]
      simp [valuesBefore, Nat.add_assoc]

theorem getD_valueOffsets (hv : v ≤ t.vars.size) :
    t.valueOffsets.getD v 0 = valuesBefore t.vars.toList v := by
  obtain ⟨-, -, hall⟩ := getElem?_foldl_offsets t.vars.toList #[0] (by simp)
  have := hall v (by simpa using hv)
  rw [valueOffsets, ← Array.foldl_toList, Array.getD_eq_getD_getElem?]
  simp only [List.size_toArray, List.length_cons, List.length_nil] at this
  rw [show v = 0 + 1 - 1 + v by omega, this]
  simp

theorem back?_valueOffsets (t : Task) :
    t.valueOffsets.back?.getD 0 = valuesBefore t.vars.toList t.vars.toList.length := by
  obtain ⟨hsize, -, hall⟩ := getElem?_foldl_offsets t.vars.toList #[0] (by simp)
  have := hall t.vars.toList.length (Nat.le_refl _)
  rw [valueOffsets, ← Array.foldl_toList, Array.back?_eq_getElem?, hsize]
  simp only [List.size_toArray, List.length_cons, List.length_nil] at this ⊢
  rw [show 0 + 1 + t.vars.toList.length - 1 = 0 + 1 - 1 + t.vars.toList.length by omega, this]
  simp

theorem valuesBefore_add_le (vars : List Variable) {i : Nat} {v : Variable} (hv : vars[i]? = some v) :
    valuesBefore vars i + v.values.length ≤ valuesBefore vars vars.length := by
  induction vars generalizing i with
  | nil => simp at hv
  | cons w vars ih =>
    cases i with
    | zero =>
      obtain rfl : w = v := by simpa using hv
      simp [valuesBefore]
    | succ i =>
      have := ih (i := i) (by simpa using hv)
      simp only [valuesBefore, List.take_succ_cons, List.map_cons, List.sum_cons, List.length_cons] at this ⊢
      omega

/-- The number of a fact is below the total. -/
theorem IsFact.number_lt (hf : t.IsFact f) :
    t.valueOffsets.getD f.var 0 + f.value < t.valueOffsets.back?.getD 0 := by
  obtain ⟨v, hv, hvalue⟩ := hf
  have hlt := (Array.getElem?_eq_some_iff.mp hv).1
  have hle := valuesBefore_add_le t.vars.toList (i := f.var) (v := v) (by simpa using hv)
  rw [getD_valueOffsets (Nat.le_of_lt hlt), back?_valueOffsets]
  omega

end RankedPlans.Task
