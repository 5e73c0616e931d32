import RankedPlans.Numbering

/-! What the insertion of an item does to a table: an item that is there keeps its number, and any other
gets the next one. -/

namespace RankedPlans.Numbering

variable {α : Type} [Ord α] {t : Numbering α} {a b : α} {i j : Nat}

theorem item?_injective (hi : t.item? i = some a) (hj : t.item? j = some a) : i = j :=
  Option.some.inj (((t.ids_eq_some_iff a i).mpr hi).symm.trans ((t.ids_eq_some_iff a j).mpr hj))

theorem lt_size_of_item? (h : t.item? i = some a) : i < t.size :=
  (Array.getElem?_eq_some_iff.mp h).1

theorem exists_item? (h : i < t.size) : ∃ a, t.item? i = some a :=
  ⟨_, Array.getElem?_eq_getElem h⟩

theorem insert_cases [Std.TransOrd α] [Std.LawfulEqOrd α] (t : Numbering α) (a : α) :
    (∃ i, t.item? i = some a ∧ t.insert a = (t, i, false)) ∨
    ∃ t', t.insert a = (t', t.size, true) ∧ t'.size = t.size + 1 ∧
      ∀ i b, t'.item? i = some b ↔ t.item? i = some b ∨ i = t.size ∧ b = a := by
  unfold insert
  split
  · rename_i i hi
    exact .inl ⟨i, (t.ids_eq_some_iff a i).mp hi, rfl⟩
  · rename_i hfresh
    refine .inr ⟨t.push a hfresh, rfl, Array.size_push .., fun i b => ?_⟩
    rw [item?, push, Array.getElem?_push]
    by_cases hi : i = t.items.size
    · rw [if_pos hi, Option.some.injEq]
      refine ⟨fun h => .inr ⟨hi, h.symm⟩, fun h => ?_⟩
      rcases h with h | h
      · exact absurd (lt_size_of_item? h) (by rw [hi]; exact Nat.lt_irrefl _)
      · exact h.2.symm
    · rw [if_neg hi]
      exact ⟨.inl, fun h => h.resolve_right fun h => hi h.1⟩

/-- The items stand in the order in which they came first. -/
theorem toList_insert [DecidableEq α] [Std.TransOrd α] [Std.LawfulEqOrd α] (t : Numbering α) (a : α) :
    (t.insert a).1.items.toList = if a ∈ t.items.toList then t.items.toList else t.items.toList ++ [a] := by
  unfold insert
  split
  · rename_i i hi
    have hmem := List.mem_of_getElem? ((Array.getElem?_toList ..).trans ((t.ids_eq_some_iff a i).mp hi))
    rw [if_pos hmem]
  · rename_i hfresh
    have hnew : a ∉ t.items.toList := fun hmem => by
      obtain ⟨i, hi⟩ := List.getElem?_of_mem hmem
      have := (t.ids_eq_some_iff a i).mpr ((Array.getElem?_toList ..).symm.trans hi)
      rw [hfresh] at this
      cases this
    rw [if_neg hnew]
    exact Array.toList_push

theorem item?_insert [Std.TransOrd α] [Std.LawfulEqOrd α] (t : Numbering α) (a : α) :
    (t.insert a).1.item? (t.insert a).2.1 = some a := by
  rcases t.insert_cases a with ⟨i, hi, heq⟩ | ⟨t', heq, -, hitem⟩
  · rw [heq]
    exact hi
  · rw [heq]
    exact (hitem _ _).mpr (.inr ⟨rfl, rfl⟩)

end RankedPlans.Numbering
