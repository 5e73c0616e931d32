import Mathlib.Algebra.Group.Nat.Defs
import RankedPlans.Proofs.Heap.Leftist

/-! Leftist heaps lean to the left: of two subtrees the right one never has the longer rightmost path, so that path
is logarithmic in the size, and so is the number of nodes that a merge makes. -/

namespace RankedPlans.LeftistHeap

variable {κ ι : Type} {le : κ → κ → Bool}

/-- Every node stores one more than the rank of its right subtree, and no right subtree outranks the left one. -/
def Leftist : LeftistHeap κ ι → Prop
  | nil => True
  | node _ rank _ _ left right =>
    right.rank ≤ left.rank ∧ rank = right.rank + 1 ∧ left.Leftist ∧ right.Leftist

@[simp] theorem leftist_nil : (nil : LeftistHeap κ ι).Leftist := trivial

/-- The stored rank is the length of the rightmost path. -/
theorem Leftist.rank_eq {h : LeftistHeap κ ι} (hl : h.Leftist) : h.rank = h.spine := by
  induction h with
  | nil => rfl
  | node _ _ _ _ _ right _ ih => rw [rank, spine, hl.2.1, ih hl.2.2.2]

@[simp] theorem length_toList (h : LeftistHeap κ ι) : h.toList.length = h.size := by
  induction h with
  | nil => rfl
  | node _ _ _ _ left right ihl ihr => simp [toList, size, ihl, ihr]

theorem Leftist.two_pow_spine_le {h : LeftistHeap κ ι} (hl : h.Leftist) : 2 ^ h.spine ≤ h.size + 1 := by
  induction h with
  | nil => exact Nat.le_refl 1
  | node _ _ _ _ left right ihl ihr =>
    obtain ⟨hle, -, hleft, hright⟩ := hl
    rw [hleft.rank_eq, hright.rank_eq] at hle
    have hpow : 2 ^ right.spine ≤ 2 ^ left.spine := Nat.pow_le_pow_right (by decide) hle
    have := ihl hleft
    have := ihr hright
    simp only [spine, size, Nat.pow_succ]
    omega

theorem Leftist.spine_le_log2 {h : LeftistHeap κ ι} (hl : h.Leftist) : h.spine ≤ Nat.log2 (h.size + 1) :=
  (Nat.le_log2 (Nat.succ_ne_zero _)).mpr hl.two_pow_spine_le

theorem join_leftist {next : Nat} {key : κ} {item : ι} {a b : LeftistHeap κ ι} (ha : a.Leftist)
    (hb : b.Leftist) : (join next key item a b).1.Leftist := by
  unfold join
  split
  · exact ⟨‹_›, rfl, ha, hb⟩
  · exact ⟨by omega, rfl, hb, ha⟩

@[simp] theorem join_snd (next : Nat) (key : κ) (item : ι) (a b : LeftistHeap κ ι) :
    (join next key item a b).2 = next + 1 := by
  unfold join
  split <;> rfl

theorem mergeWithin_leftist (le : κ → κ → Bool) (fuel next : Nat) {a b : LeftistHeap κ ι} (ha : a.Leftist)
    (hb : b.Leftist) : (mergeWithin le fuel next a b).1.Leftist := by
  fun_induction mergeWithin le fuel next a b with
  | case1 => exact hb
  | case2 => exact ha
  | case3 => exact ha
  | case4 fuel next sa na ka ia la ra sb nb kb ib lb rb hle merged next' hmerge ih =>
    have hmerged := ih ha.2.2.2 hb
    rw [hmerge] at hmerged
    exact join_leftist ha.2.2.1 hmerged
  | case5 fuel next sa na ka ia la ra sb nb kb ib lb rb hle merged next' hmerge ih =>
    have hmerged := ih hb.2.2.2 ha
    rw [hmerge] at hmerged
    exact join_leftist hb.2.2.1 hmerged

/-- Each step of a merge makes one node and takes one off the rightmost paths. -/
theorem mergeWithin_snd_le (le : κ → κ → Bool) (fuel next : Nat) (a b : LeftistHeap κ ι) :
    (mergeWithin le fuel next a b).2 ≤ next + a.spine + b.spine := by
  fun_induction mergeWithin le fuel next a b with
  | case1 => omega
  | case2 => omega
  | case3 => omega
  | case4 fuel next sa na ka ia la ra sb nb kb ib lb rb hle merged next' hmerge ih =>
    rw [hmerge] at ih
    simp only [join_snd, spine] at ih ⊢
    omega
  | case5 fuel next sa na ka ia la ra sb nb kb ib lb rb hle merged next' hmerge ih =>
    rw [hmerge] at ih
    simp only [join_snd, spine] at ih ⊢
    omega

theorem merge_leftist (le : κ → κ → Bool) (next : Nat) {a b : LeftistHeap κ ι} (ha : a.Leftist)
    (hb : b.Leftist) : (merge le next a b).1.Leftist :=
  mergeWithin_leftist le _ next ha hb

theorem insert_leftist (le : κ → κ → Bool) (next : Nat) {heap : LeftistHeap κ ι} (h : heap.Leftist)
    (key : κ) (item : ι) : (heap.insert le next key item).1.Leftist :=
  merge_leftist le _ h ⟨Nat.le_refl 0, rfl, trivial, trivial⟩

/-- A merge makes a logarithmic number of nodes. -/
theorem merge_snd_le (le : κ → κ → Bool) (next : Nat) {a b : LeftistHeap κ ι} (ha : a.Leftist)
    (hb : b.Leftist) :
    (merge le next a b).2 ≤ next + Nat.log2 (a.size + 1) + Nat.log2 (b.size + 1) := by
  have hnodes : (merge le next a b).2 ≤ next + a.spine + b.spine := mergeWithin_snd_le le _ next a b
  have := ha.spine_le_log2
  have := hb.spine_le_log2
  omega

end RankedPlans.LeftistHeap
