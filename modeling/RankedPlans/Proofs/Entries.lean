import RankedPlans.Entries

/-! Lists of named values. What is put into a list or erased from it is seen under its own name alone. With distinct
names, bringing the values into ascending order of names loses nothing, and the order in which they were given leaves no
trace. -/

namespace RankedPlans.Entries

variable {α : Type} {xs ys : List (String × α)}

theorem get?_cons (name other : String) (value : α) (es : Entries α) :
    get? ((other, value) :: es) name = if name = other then some value else get? es name := by
  rw [get?, get?, List.lookup_cons]
  by_cases h : name = other
  · simp [h]
  · rw [beq_eq_false_iff_ne.mpr h, if_neg h]

theorem get?_put (name other : String) (value : α) (es : Entries α) :
    get? (put other value es) name = if name = other then some value else get? es name := by
  induction es with
  | nil => exact get?_cons name other value []
  | cons e es ih =>
    obtain ⟨third, held⟩ := e
    unfold put
    split
    · subst third
      rw [get?_cons, get?_cons]
      split <;> rfl
    · split
      · exact get?_cons name other value _
      · rename_i hne _
        rw [get?_cons, get?_cons, ih]
        -- the entry that is passed over has another name
        by_cases h : name = third
        · rw [if_pos h, if_pos h, if_neg (h ▸ fun heq => hne heq.symm)]
        · rw [if_neg h, if_neg h]

theorem mem_put_of_ne {name other : String} {value held : α} {es : Entries α} (hne : name ≠ other) :
    (name, held) ∈ put other value es ↔ (name, held) ∈ es := by
  induction es with
  | nil => simp [put, hne]
  | cons e es ih =>
    obtain ⟨third, kept⟩ := e
    unfold put
    split
    · subst third
      simp [hne]
    · split
      · simp [hne]
      · rw [List.mem_cons, List.mem_cons, ih]

theorem get?_erase (name other : String) (es : Entries α) :
    get? (erase es other) name = if name = other then none else get? es name := by
  induction es with
  | nil => exact (ite_self none).symm
  | cons e es ih =>
    obtain ⟨third, held⟩ := e
    rw [erase, List.filter_cons]
    split
    · rename_i hkeep
      have hne : third ≠ other := by simpa using hkeep
      rw [get?_cons, get?_cons, ← erase, ih]
      by_cases h : name = third
      · rw [if_pos h, if_pos h, if_neg (h ▸ hne)]
      · rw [if_neg h, if_neg h]
    · rename_i hdrop
      have heq : third = other := by simpa using hdrop
      rw [← erase, ih, get?_cons, heq]
      split <;> rfl

/-- With distinct names the values at the front are found under their names, and no further one is. -/
theorem get?_take {name : String} {value : α} {es : Entries α} (hnd : (es.map Prod.fst).Nodup) {i : Nat}
    (hi : es[i]? = some (name, value)) (k : Nat) : get? (es.take k) name = if i < k then some value else none := by
  induction es generalizing i k with
  | nil => cases hi
  | cons e es ih =>
    obtain ⟨hnew, hnd⟩ := List.nodup_cons.mp hnd
    cases k with
    | zero => rfl
    | succ k =>
      rw [List.take_succ_cons, get?_cons]
      cases i with
      | zero =>
        obtain rfl := Option.some.inj hi
        rw [if_pos rfl, if_pos k.succ_pos]
      | succ i =>
        have hmem : (name, value) ∈ es := List.mem_of_getElem? hi
        rw [if_neg fun heq => hnew (List.mem_map.mpr ⟨_, hmem, heq⟩), ih hnd hi]
        simp only [Nat.succ_lt_succ_iff]

theorem mem_of_get? {name : String} {value : α} {es : Entries α} (h : get? es name = some value) :
    (name, value) ∈ es := by
  induction es with
  | nil => cases h
  | cons e es ih =>
    obtain ⟨other, held⟩ := e
    rw [get?_cons] at h
    split at h
    · obtain rfl := Option.some.inj h
      subst other
      exact List.mem_cons_self
    · exact List.mem_cons_of_mem _ (ih h)

/-- With distinct names every value is found under its name. -/
theorem get?_eq_some_iff {name : String} {value : α} {es : Entries α} (hnd : (es.map Prod.fst).Nodup) :
    get? es name = some value ↔ (name, value) ∈ es := by
  refine ⟨mem_of_get?, fun hmem => ?_⟩
  obtain ⟨i, hi⟩ := List.getElem?_of_mem hmem
  have hfound := get?_take hnd hi es.length
  rwa [List.take_length, if_pos (List.getElem?_eq_some_iff.mp hi).1] at hfound

theorem le_trans (v w x : String × α) (hvw : (!decide (w.1 < v.1)) = true) (hwx : (!decide (x.1 < w.1)) = true) :
    (!decide (x.1 < v.1)) = true := by
  simp only [Bool.not_eq_eq_eq_not, Bool.not_true, decide_eq_false_iff_not, String.not_lt] at *
  exact String.le_trans hvw hwx

theorem le_total (v w : String × α) : (!decide (w.1 < v.1)) = true ∨ (!decide (v.1 < w.1)) = true := by
  simp only [Bool.not_eq_eq_eq_not, Bool.not_true, decide_eq_false_iff_not, String.not_lt]
  exact String.le_total _ _

theorem lastOfEach_eq_self (h : xs.Pairwise fun v w => v.1 ≠ w.1) : lastOfEach xs = xs := by
  fun_induction lastOfEach xs with
  | case1 v w rest heq => exact absurd heq ((List.pairwise_cons.mp h).1 w (by simp))
  | case2 v w rest _ ih => rw [ih (List.pairwise_cons.mp h).2]
  | case3 => rfl

/-- With distinct names the list is sorted and nothing more. -/
theorem ofList_eq_sortBy (hnd : (xs.map Prod.fst).Nodup) :
    ofList xs = sortBy (fun v w => !decide (w.1 < v.1)) xs := by
  have hsorted := sortBy_perm (fun v w : String × α => !decide (w.1 < v.1)) xs
  exact lastOfEach_eq_self (List.pairwise_map.mp ((hsorted.map Prod.fst).nodup_iff.mpr hnd))

theorem ofList_perm (hnd : (xs.map Prod.fst).Nodup) : (ofList xs).Perm xs :=
  ofList_eq_sortBy hnd ▸ sortBy_perm _ xs

/-- The names ascend. -/
theorem ofList_pairwise (hnd : (xs.map Prod.fst).Nodup) : (ofList xs).Pairwise fun v w => v.1 < w.1 := by
  have hle := sortBy_pairwise le_trans le_total xs
  rw [← ofList_eq_sortBy hnd] at hle
  have hne : (ofList xs).Pairwise fun v w => v.1 ≠ w.1 :=
    List.pairwise_map.mp (((ofList_perm hnd).map Prod.fst).nodup_iff.mpr hnd)
  refine (hle.and hne).imp fun {v w} ⟨hle, hne⟩ => ?_
  simp only [Bool.not_eq_eq_eq_not, Bool.not_true, decide_eq_false_iff_not, String.not_lt] at hle
  exact Std.lt_of_le_of_ne hle hne

theorem nodup_of_pairwise (h : xs.Pairwise fun v w => v.1 < w.1) : (xs.map Prod.fst).Nodup :=
  List.pairwise_map.mpr (h.imp String.ne_of_lt)

theorem eq_of_perm (hxs : xs.Pairwise fun v w => v.1 < w.1) (hys : ys.Pairwise fun v w => v.1 < w.1)
    (h : xs.Perm ys) : xs = ys :=
  h.eq_of_pairwise (fun _ _ _ _ hvw hwv => absurd hwv (String.lt_asymm hvw)) hxs hys

theorem ofList_eq_self (h : xs.Pairwise fun v w => v.1 < w.1) : ofList xs = xs :=
  eq_of_perm (ofList_pairwise (nodup_of_pairwise h)) h (ofList_perm (nodup_of_pairwise h))

/-- The order of the values leaves no trace. -/
theorem ofList_eq_of_perm (hnd : (xs.map Prod.fst).Nodup) (h : xs.Perm ys) : ofList xs = ofList ys := by
  have hnd' := (h.map Prod.fst).nodup_iff.mp hnd
  exact eq_of_perm (ofList_pairwise hnd) (ofList_pairwise hnd')
    ((ofList_perm hnd).trans (h.trans (ofList_perm hnd').symm))

end RankedPlans.Entries
