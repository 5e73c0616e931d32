import Mathlib.Algebra.GroupWithZero.Nat
import RankedPlans.Proofs.Symmetry.UnionFind

/-! A rank rises only where two classes of that rank become one. So a class has at least as many members as two to the
power of the rank of its root, and no rank exceeds the binary logarithm of the number of all members. -/

namespace RankedPlans.UnionFind

variable {u u' : UnionFind} {n x r child : Nat}

/-- The numbers of a class, by its root. -/
def members (u : UnionFind) (n r : Nat) : Finset Nat :=
  (Finset.range n).filter fun x => (u.find x).2 = r

/-- The class of every root has as many members as the rank of the root asks for. -/
def Populous (u : UnionFind) (n : Nat) : Prop :=
  ∀ r < n, u.parent r = r → 2 ^ u.rank r ≤ (u.members n r).card

namespace Valid

variable (h : u.Valid n)
include h

theorem mem_members : x ∈ u.members n r ↔ x < n ∧ u.Root x r := by
  rw [members, Finset.mem_filter, Finset.mem_range]
  refine and_congr_right fun hx => ?_
  obtain ⟨-, hroot, -⟩ := h.find hx
  exact ⟨fun heq => heq ▸ hroot, fun hr => hroot.unique hr⟩

/-- Ranks rise towards the root. -/
theorem rank_le_of_root (hr : u.Root x r) : u.rank x ≤ u.rank r := by
  induction hr with
  | self => exact Nat.le_refl _
  | @step x r _ ih =>
    by_cases hx : u.parent x = x
    · rwa [hx] at ih
    · exact Nat.le_trans (Nat.le_of_lt (h.rank_lt hx)) ih

/-- After one root has gone below another, the roots are those of before without that one. -/
theorem root_of_joins (hjoins : u.Joins u' child r) (hr : u.parent r = r) (hne : child ≠ r)
    (hx : u'.parent x = x) : u.parent x = x ∧ x ≠ child := by
  obtain ⟨s, hs, -⟩ := h.exists_root x
  have hroot : (if s = child then r else s) = x := (hjoins.root x s hs).eq_self hx
  split at hroot
  · exact ⟨hroot ▸ hr, fun heq => hne (heq.symm.trans hroot.symm)⟩
  · rename_i hsc
    exact ⟨hroot ▸ hs.parent_eq, hroot ▸ hsc⟩

end Valid

namespace Populous

theorem ofSize (n : Nat) : (UnionFind.ofSize n).Populous n := by
  have hvalid := Valid.ofSize n
  intro r hr hself
  have hrank : (UnionFind.ofSize n).rank r = 0 := by simp [rank, UnionFind.ofSize, hr]
  rw [hrank, Nat.pow_zero]
  exact Finset.card_pos.mpr ⟨r, hvalid.mem_members.mpr ⟨hr, .self hself⟩⟩

theorem kept (hp : u.Populous n) (h : u.Valid n) (hkept : u.Kept u' n) : u'.Populous n := by
  intro r hr hself
  have hmembers : u'.members n r = u.members n r := by
    ext x
    rw [hkept.valid.mem_members, h.mem_members, hkept.root_iff]
  rw [hmembers, hkept.rank_eq]
  exact hp r hr ((hkept.root_iff r r).mp (.self hself)).parent_eq

/-- A class that takes up another one has the members of both. -/
theorem joins (hp : u.Populous n) (h : u.Valid n) (h' : u'.Valid n) (hjoins : u.Joins u' child r)
    (hchild : u.parent child = child) (hr : u.parent r = r) (hlt : child < n) (hne : child ≠ r) : u'.Populous n := by
  intro s hs hself
  obtain ⟨hroot, hsc⟩ := h.root_of_joins hjoins hr hne hself
  have hold := hp s hs hroot
  have hsub : u.members n s ⊆ u'.members n s := fun x hx => by
    obtain ⟨hlt, hxs⟩ := h.mem_members.mp hx
    have hkept := hjoins.root x s hxs
    rw [if_neg hsc] at hkept
    exact h'.mem_members.mpr ⟨hlt, hkept⟩
  by_cases hsr : s = r
  · subst hsr
    have htaken : u.members n child ⊆ u'.members n s := fun x hx => by
      obtain ⟨hlt, hxc⟩ := h.mem_members.mp hx
      have hmoved := hjoins.root x child hxc
      rw [if_pos rfl] at hmoved
      exact h'.mem_members.mpr ⟨hlt, hmoved⟩
    have hdisjoint : Disjoint (u.members n s) (u.members n child) :=
      Finset.disjoint_left.mpr fun x hx hx' =>
        hsc ((h.mem_members.mp hx).2.unique (h.mem_members.mp hx').2)
    have hboth : (u.members n s).card + (u.members n child).card ≤ (u'.members n s).card := by
      rw [← Finset.card_union_of_disjoint hdisjoint]
      exact Finset.card_le_card (Finset.union_subset hsub htaken)
    have hpaid := hp child hlt hchild
    rw [hjoins.rank_self]
    rcases Nat.le_total (u.rank child + 1) (u.rank s) with hle | hle
    · rw [Nat.max_eq_left hle]
      omega
    · -- both classes have the members that the old rank asks for
      have hpow : 2 ^ u.rank child ≤ 2 ^ u.rank s := Nat.pow_le_pow_right (by decide) hjoins.rank_le
      rw [Nat.max_eq_right hle, Nat.pow_succ]
      omega
  · rw [hjoins.rank_ne s hsr]
    exact Nat.le_trans hold (Finset.card_le_card hsub)

theorem union {a b : Nat} (hp : u.Populous n) (h : u.Valid n) (ha : a < n) (hb : b < n) :
    (u.union a b).1.Populous n := by
  obtain ⟨ra, rb, hra, hrb, hvalid, ⟨-, -, hkept⟩ | ⟨hne, -, child, r, hends, hjoins⟩⟩ := h.union_cases ha hb
  · exact hp.kept h hkept
  · rcases hends with ⟨rfl, rfl⟩ | ⟨rfl, rfl⟩
    · exact hp.joins h hvalid hjoins hra.parent_eq hrb.parent_eq (h.root_lt hra ha) hne
    · exact hp.joins h hvalid hjoins hrb.parent_eq hra.parent_eq (h.root_lt hrb hb) (Ne.symm hne)

/-- Ranks do not exceed the logarithm of the number of all members. -/
theorem rank_le_log2 (hp : u.Populous n) (h : u.Valid n) (x : Nat) : u.rank x ≤ n.log2 := by
  by_cases hx : x < n
  · obtain ⟨r, hr, -⟩ := h.exists_root x
    have hcard : (u.members n r).card ≤ n :=
      Nat.le_trans (Finset.card_filter_le _ _) (Nat.le_of_eq (Finset.card_range n))
    have hpow : 2 ^ u.rank r ≤ n := Nat.le_trans (hp r (h.root_lt hr hx) hr.parent_eq) hcard
    exact Nat.le_trans (h.rank_le_of_root hr) ((Nat.le_log2 (by omega)).mpr hpow)
  · have hrank : u.rank x = 0 := by
      rw [rank, Array.getD_eq_getD_getElem?, Array.getElem?_eq_none (by rw [h.ranks_size]; omega)]
      rfl
    rw [hrank]
    exact Nat.zero_le _

end Populous

end RankedPlans.UnionFind
