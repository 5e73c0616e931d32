import RankedPlans.Heap.PriorityQueue
import RankedPlans.Proofs.Heap.Leftist

/-! A priority queue holds what was pushed and not yet popped, and the element that comes out is
one of least key. -/

namespace RankedPlans

theorem costThenNumber_iff {a b : Int × Nat} :
    costThenNumber a b = true ↔ a.1 < b.1 ∨ a.1 = b.1 ∧ a.2 ≤ b.2 := by
  simp only [costThenNumber, Bool.or_eq_true, Bool.and_eq_true, decide_eq_true_eq, beq_iff_eq]

theorem costThenNumber_totalPreorder : TotalPreorder costThenNumber where
  trans a b c hab hbc := by
    rw [costThenNumber_iff] at *
    omega
  total a b := by
    rw [costThenNumber_iff, costThenNumber_iff]
    omega

theorem costThenNumber_antisymm {a b : Int × Nat} (hab : costThenNumber a b = true)
    (hba : costThenNumber b a = true) : a = b := by
  rw [costThenNumber_iff] at hab hba
  exact Prod.ext (by omega) (by omega)

theorem le_of_costThenNumber {a b : Int × Nat} (h : costThenNumber a b = true) : a.1 ≤ b.1 := by
  rw [costThenNumber_iff] at h
  omega

namespace PriorityQueue

variable {κ ι : Type} {le : κ → κ → Bool}

/-- The heap is in order and the counter counts its elements. -/
structure Valid (le : κ → κ → Bool) (q : PriorityQueue κ ι) : Prop where
  ordered : q.heap.Ordered le
  size_eq : q.size = q.toList.length

theorem valid_empty : Valid le ({} : PriorityQueue κ ι) := ⟨trivial, rfl⟩

@[simp] theorem toList_empty : ({} : PriorityQueue κ ι).toList = [] := rfl

theorem push_toList (le : κ → κ → Bool) (q : PriorityQueue κ ι) (key : κ) (item : ι) :
    (q.push le key item).toList.Perm ((key, item) :: q.toList) :=
  LeftistHeap.insert_toList le 0 q.heap key item

theorem Valid.push {q : PriorityQueue κ ι} (hle : TotalPreorder le) (h : q.Valid le) (key : κ)
    (item : ι) : (q.push le key item).Valid le where
  ordered := LeftistHeap.insert_ordered hle 0 h.ordered key item
  size_eq := by
    rw [(push_toList le q key item).length_eq, List.length_cons, ← h.size_eq]
    rfl

theorem peek?_eq_none_iff {q : PriorityQueue κ ι} : q.peek? = none ↔ q.toList = [] := by
  unfold peek? toList
  cases q.heap <;> simp [LeftistHeap.toList]

/-- Popping takes out the element that was at the front. -/
theorem pop_toList {q : PriorityQueue κ ι} {p : κ × ι} (le : κ → κ → Bool)
    (hp : q.peek? = some p) : q.toList.Perm (p :: (q.pop le).toList) := by
  obtain ⟨heap, size⟩ := q
  cases heap with
  | nil => simp [peek?] at hp
  | node serial rank key item left right =>
    obtain rfl : (key, item) = p := by simpa [peek?] using hp
    exact ((LeftistHeap.merge_toList le 0 left right).symm).cons _

theorem peek?_mem {q : PriorityQueue κ ι} {p : κ × ι} (hp : q.peek? = some p) :
    p ∈ q.toList :=
  (pop_toList (fun _ _ => true) hp).mem_iff.mpr (List.mem_cons_self ..)

/-- The element at the front has a least key. -/
theorem Valid.peek?_le {q : PriorityQueue κ ι} (hle : TotalPreorder le) (h : q.Valid le)
    {p : κ × ι} (hp : q.peek? = some p) : ∀ x ∈ q.toList, le p.1 x.1 = true := by
  obtain ⟨heap, size⟩ := q
  cases heap with
  | nil => simp [peek?] at hp
  | node serial rank key item left right =>
    obtain rfl : (key, item) = p := by simpa [peek?] using hp
    exact h.ordered.le_root hle

theorem Valid.pop {q : PriorityQueue κ ι} (hle : TotalPreorder le) (h : q.Valid le) :
    (q.pop le).Valid le := by
  obtain ⟨heap, size⟩ := q
  cases heap with
  | nil => exact h
  | node serial rank key item left right =>
    have hlen := (pop_toList le (q := ⟨.node serial rank key item left right, size⟩)
      (p := (key, item)) rfl).length_eq
    refine ⟨LeftistHeap.merge_ordered hle 0 h.ordered.2.2.1 h.ordered.2.2.2, ?_⟩
    rw [← h.size_eq, List.length_cons] at hlen
    show size - 1 = _
    simp only at hlen
    omega

end PriorityQueue

end RankedPlans
