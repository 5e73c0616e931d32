import Std.Data.TreeMap

/-!
Tables of distinct items, numbered in the order in which they first come. The same item always has the
same number.
-/

namespace RankedPlans

/-- The items by number, and the number of each of them. -/
structure Numbering (α : Type) [Ord α] where
  items : Array α
  ids : Std.TreeMap α Nat
  ids_eq_some_iff : ∀ (a : α) (i : Nat), ids[a]? = some i ↔ items[i]? = some a

namespace Numbering

variable {α : Type} [Ord α]

/-- The table without items. -/
def empty : Numbering α :=
  ⟨#[], ∅, fun _ i => ⟨fun h => absurd (show none = some i from h) nofun, nofun⟩⟩

instance : Inhabited (Numbering α) :=
  ⟨empty⟩

/-- The number of an item of the table. -/
def id? (t : Numbering α) (a : α) : Option Nat :=
  t.ids[a]?

/-- The item of a number. -/
def item? (t : Numbering α) (i : Nat) : Option α :=
  t.items[i]?

/-- How many items the table holds. -/
def size (t : Numbering α) : Nat :=
  t.items.size

variable [Std.TransOrd α] [Std.LawfulEqOrd α]

theorem push_ids_eq_some_iff (t : Numbering α) {a : α} (fresh : t.ids[a]? = none) (b : α) (i : Nat) :
    (t.ids.insert a t.items.size)[b]? = some i ↔ (t.items.push a)[i]? = some b := by
  have absent : ∀ j, t.items[j]? ≠ some a := fun j hj => by
    have := (t.ids_eq_some_iff a j).2 hj
    simp [fresh] at this
  rw [Std.TreeMap.getElem?_insert, Array.getElem?_push]
  by_cases hb : a = b
  · subst hb
    by_cases hi : i = t.items.size
    · simp [hi]
    · have hne : t.items.size ≠ i := fun h => hi h.symm
      simp [hi, hne, absent i]
  · by_cases hi : i = t.items.size
    · subst hi
      have := t.ids_eq_some_iff b t.items.size
      simp [hb, this]
    · simp [hb, hi, t.ids_eq_some_iff b i]

/-- A table with one more item at the end. -/
def push (t : Numbering α) (a : α) (fresh : t.ids[a]? = none) : Numbering α :=
  let number := t.items.size
  ⟨t.items.push a, t.ids.insert a number, t.push_ids_eq_some_iff fresh⟩

/-- The table with an item, the number of the item, and whether it is new. -/
def insert (t : Numbering α) (a : α) : Numbering α × Nat × Bool :=
  let number := t.items.size
  match h : t.ids[a]? with
  | some i => (t, i, false)
  | none => (t.push a h, number, true)

end Numbering

end RankedPlans
