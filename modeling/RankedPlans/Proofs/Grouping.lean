/-! Values that are sorted or written into places one after the other: each place ends up with the values
that were meant for it. -/

namespace RankedPlans

variable {α β : Type}

theorem getElem?_foldl_modify (key : α → Nat) (f : α → β → β) (l : List α) (xs : Array β)
    (v : Nat) : (l.foldl (fun xs a => xs.modify (key a) (f a)) xs)[v]? =
      xs[v]?.map fun x => (l.filter (key · == v)).foldl (fun x a => f a x) x := by
  induction l generalizing xs with
  | nil => simp
  | cons a l ih =>
    rw [List.foldl_cons, ih, Array.getElem?_modify]
    by_cases h : key a = v
    · simp [h, Function.comp_def]
    · simp [h]

section Set

variable (key : α → Nat) (val : α → β)

@[simp] theorem size_foldl_setIfInBounds (l : List α) (xs : Array β) :
    (l.foldl (fun xs a => xs.setIfInBounds (key a) (val a)) xs).size = xs.size := by
  induction l generalizing xs with
  | nil => rfl
  | cons a l ih => rw [List.foldl_cons, ih, Array.size_setIfInBounds]

theorem getElem?_foldl_setIfInBounds_of_not_mem {l : List α} {i : Nat} (h : i ∉ l.map key)
    (xs : Array β) : (l.foldl (fun xs a => xs.setIfInBounds (key a) (val a)) xs)[i]? = xs[i]? := by
  induction l generalizing xs with
  | nil => rfl
  | cons a l ih =>
    rw [List.map_cons, List.mem_cons, not_or] at h
    rw [List.foldl_cons, ih h.2, Array.getElem?_setIfInBounds_ne (Ne.symm h.1)]

/-- Where no two values are meant for one place, each value gets its place. -/
theorem getElem?_foldl_setIfInBounds_of_mem {l : List α} {a : α} (ha : a ∈ l)
    (hnd : (l.map key).Nodup) {xs : Array β} (hlt : key a < xs.size) :
    (l.foldl (fun xs a => xs.setIfInBounds (key a) (val a)) xs)[key a]? = some (val a) := by
  induction l generalizing xs with
  | nil => cases ha
  | cons b l ih =>
    obtain ⟨hb, hnd⟩ := List.nodup_cons.mp hnd
    rw [List.foldl_cons]
    rcases List.mem_cons.mp ha with rfl | ha
    · rw [getElem?_foldl_setIfInBounds_of_not_mem key val hb,
        Array.getElem?_setIfInBounds_self_of_lt hlt]
    · exact ih ha hnd (by rwa [Array.size_setIfInBounds])

/-- Where all values are the same, it does not matter how often a place is written. -/
theorem getElem?_foldl_setIfInBounds_const (b : β) (l : List α) (xs : Array β) (i : Nat) :
    (l.foldl (fun xs a => xs.setIfInBounds (key a) b) xs)[i]? =
      if i ∈ l.map key then xs[i]?.map fun _ => b else xs[i]? := by
  induction l generalizing xs with
  | nil => simp
  | cons a l ih =>
    rw [List.foldl_cons, ih, Array.getElem?_setIfInBounds]
    by_cases ha : key a = i
    · subst ha
      by_cases hlt : key a < xs.size <;> simp [hlt]
    · simp [ha, Ne.symm ha]

end Set

/-- Where each number stands in an array of distinct numbers. -/
theorem getElem?_positions {xs : Array Nat} (hnd : xs.toList.Nodup) {n v c : Nat}
    (hv : xs[v]? = some c) (hc : c < n) :
    (xs.toList.zipIdx.foldl (fun inv (c, v) => inv.setIfInBounds c v) (Array.replicate n 0))[c]? =
      some v := by
  have hmem : (c, v) ∈ xs.toList.zipIdx := List.mk_mem_zipIdx_iff_getElem?.mpr (by simpa using hv)
  have hfst : (xs.toList.zipIdx.map Prod.fst).Nodup := by rwa [List.zipIdx_map_fst]
  exact getElem?_foldl_setIfInBounds_of_mem Prod.fst Prod.snd hmem hfst (by simpa using hc)

theorem size_positions (xs : Array Nat) (n : Nat) :
    (xs.toList.zipIdx.foldl (fun inv (c, v) => inv.setIfInBounds c v) (Array.replicate n 0)).size = n :=
  (size_foldl_setIfInBounds Prod.fst Prod.snd _ _).trans Array.size_replicate

end RankedPlans
