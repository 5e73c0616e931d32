import RankedPlans.Heap.Leftist

/-! Merges of leftist heaps keep all elements and the order of the keys: no key of a heap comes
before the key at its root. -/

namespace RankedPlans

/-- A Boolean order that is transitive and separates no two elements both ways. -/
structure TotalPreorder {α : Type} (le : α → α → Bool) : Prop where
  trans : ∀ a b c, le a b = true → le b c = true → le a c = true
  total : ∀ a b, le a b = true ∨ le b a = true

theorem TotalPreorder.refl {α : Type} {le : α → α → Bool} (h : TotalPreorder le) (a : α) :
    le a a = true := (h.total a a).elim id id

namespace LeftistHeap

variable {κ ι : Type} {le : κ → κ → Bool}

/-- The key of every node comes no later than the keys below it. -/
def Ordered (le : κ → κ → Bool) : LeftistHeap κ ι → Prop
  | nil => True
  | node _ _ key _ left right =>
    (∀ p ∈ left.toList, le key p.1 = true) ∧ (∀ p ∈ right.toList, le key p.1 = true) ∧
      Ordered le left ∧ Ordered le right

@[simp] theorem ordered_nil : (nil : LeftistHeap κ ι).Ordered le := trivial

theorem Ordered.le_root {serial rank : Nat} {key : κ} {item : ι} {left right : LeftistHeap κ ι}
    (h : (node serial rank key item left right).Ordered le) (hle : TotalPreorder le) :
    ∀ p ∈ (node serial rank key item left right).toList, le key p.1 = true := by
  intro p hp
  rcases List.mem_cons.mp hp with rfl | hp
  · exact hle.refl key
  · rcases List.mem_append.mp hp with hp | hp
    · exact h.1 p hp
    · exact h.2.1 p hp

theorem join_toList (next : Nat) (key : κ) (item : ι) (a b : LeftistHeap κ ι) :
    (join next key item a b).1.toList.Perm ((key, item) :: (a.toList ++ b.toList)) := by
  unfold join
  split
  · exact List.Perm.refl _
  · exact (List.perm_append_comm).cons _

theorem join_ordered {next : Nat} {key : κ} {item : ι} {a b : LeftistHeap κ ι}
    (ha : a.Ordered le) (hb : b.Ordered le) (hka : ∀ p ∈ a.toList, le key p.1 = true)
    (hkb : ∀ p ∈ b.toList, le key p.1 = true) : (join next key item a b).1.Ordered le := by
  unfold join
  split
  · exact ⟨hka, hkb, ha, hb⟩
  · exact ⟨hkb, hka, hb, ha⟩

theorem mergeWithin_toList (le : κ → κ → Bool) (fuel next : Nat) (a b : LeftistHeap κ ι)
    (hf : a.spine + b.spine ≤ fuel) :
    (mergeWithin le fuel next a b).1.toList.Perm (a.toList ++ b.toList) := by
  induction fuel generalizing next a b with
  | zero =>
    cases a with
    | nil => simp [mergeWithin, toList]
    | node => simp [spine] at hf
  | succ fuel ih =>
    cases a with
    | nil => simp [mergeWithin, toList]
    | node sa na ka ia la ra =>
      cases b with
      | nil => simp [mergeWithin, toList]
      | node sb nb kb ib lb rb =>
        simp only [spine] at hf
        simp only [mergeWithin]
        split
        · have hm := ih next ra (node sb nb kb ib lb rb) (by simp only [spine]; omega)
          refine (join_toList _ _ _ _ _).trans ?_
          simpa [toList] using hm.append_left la.toList
        · have hm := ih next rb (node sa na ka ia la ra) (by simp only [spine]; omega)
          refine (join_toList _ _ _ _ _).trans ?_
          refine ((hm.append_left lb.toList).cons (kb, ib)).trans ?_
          rw [← List.append_assoc, ← List.cons_append]
          exact List.perm_append_comm

theorem mergeWithin_ordered (hle : TotalPreorder le) (fuel next : Nat) {a b : LeftistHeap κ ι}
    (hf : a.spine + b.spine ≤ fuel) (ha : a.Ordered le) (hb : b.Ordered le) :
    (mergeWithin le fuel next a b).1.Ordered le := by
  induction fuel generalizing next a b with
  | zero =>
    cases a with
    | nil => simpa [mergeWithin] using hb
    | node => simp [spine] at hf
  | succ fuel ih =>
    cases a with
    | nil => simpa [mergeWithin] using hb
    | node sa na ka ia la ra =>
      cases b with
      | nil => simpa [mergeWithin] using ha
      | node sb nb kb ib lb rb =>
        simp only [spine] at hf
        simp only [mergeWithin]
        split
        · rename_i hab
          have hfuel : ra.spine + (node sb nb kb ib lb rb).spine ≤ fuel := by
            simp only [spine]; omega
          refine join_ordered ha.2.2.1 (ih next hfuel ha.2.2.2 hb) ha.1 fun p hp => ?_
          have hmem := (mergeWithin_toList le fuel next _ _ hfuel).mem_iff.mp hp
          rcases List.mem_append.mp hmem with hp | hp
          · exact ha.2.1 p hp
          · exact hle.trans _ _ _ hab (hb.le_root hle p hp)
        · rename_i hab
          have hba := (hle.total ka kb).resolve_left hab
          have hfuel : rb.spine + (node sa na ka ia la ra).spine ≤ fuel := by
            simp only [spine]; omega
          refine join_ordered hb.2.2.1 (ih next hfuel hb.2.2.2 ha) hb.1 fun p hp => ?_
          have hmem := (mergeWithin_toList le fuel next _ _ hfuel).mem_iff.mp hp
          rcases List.mem_append.mp hmem with hp | hp
          · exact hb.2.1 p hp
          · exact hle.trans _ _ _ hba (ha.le_root hle p hp)

/-- A merge holds the elements of both heaps. -/
theorem merge_toList (le : κ → κ → Bool) (next : Nat) (a b : LeftistHeap κ ι) :
    (merge le next a b).1.toList.Perm (a.toList ++ b.toList) :=
  mergeWithin_toList le _ next a b (Nat.le_refl _)

theorem merge_ordered (hle : TotalPreorder le) (next : Nat) {a b : LeftistHeap κ ι}
    (ha : a.Ordered le) (hb : b.Ordered le) : (merge le next a b).1.Ordered le :=
  mergeWithin_ordered hle _ next (Nat.le_refl _) ha hb

theorem insert_toList (le : κ → κ → Bool) (next : Nat) (heap : LeftistHeap κ ι) (key : κ)
    (item : ι) : (heap.insert le next key item).1.toList.Perm ((key, item) :: heap.toList) := by
  refine (merge_toList le (next + 1) heap (node next 1 key item nil nil)).trans ?_
  simp [toList]

theorem insert_ordered (hle : TotalPreorder le) (next : Nat) {heap : LeftistHeap κ ι}
    (h : heap.Ordered le) (key : κ) (item : ι) : (heap.insert le next key item).1.Ordered le :=
  merge_ordered hle _ h ⟨by simp [toList], by simp [toList], trivial, trivial⟩

end LeftistHeap

end RankedPlans
