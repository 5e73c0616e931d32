import Mathlib.Data.Finset.Card
import Mathlib.Data.Finset.Range
import Mathlib.Logic.Relation
import RankedPlans.Symmetry.UnionFind

/-! Every chain of parents ends in a root, and numbers with one root form a class. Looking a number up
changes chains but no root; merging two classes leaves all others as they are. So the classes are those of
the equivalence that the merged pairs generate. -/

namespace RankedPlans

/-- One more pair joins the classes of its two ends. -/
theorem eqvGen_or_pair_iff {α : Type} {rel : α → α → Prop} {a b x y : α} :
    Relation.EqvGen (fun x y => rel x y ∨ x = a ∧ y = b) x y ↔
      Relation.EqvGen rel x y ∨
        Relation.EqvGen rel x a ∧ Relation.EqvGen rel b y ∨
        Relation.EqvGen rel x b ∧ Relation.EqvGen rel a y := by
  have refl := Relation.EqvGen.refl (r := rel)
  have symm := Relation.EqvGen.symm (r := rel)
  have trans := Relation.EqvGen.trans (r := rel)
  constructor
  · intro h
    induction h with
    | rel x y h =>
      rcases h with h | ⟨rfl, rfl⟩
      · exact .inl (.rel x y h)
      · exact .inr (.inl ⟨refl x, refl y⟩)
    | refl x => exact .inl (refl x)
    | symm x y _ ih =>
      rcases ih with h | ⟨hx, hy⟩ | ⟨hx, hy⟩
      · exact .inl (symm _ _ h)
      · exact .inr (.inr ⟨symm _ _ hy, symm _ _ hx⟩)
      · exact .inr (.inl ⟨symm _ _ hy, symm _ _ hx⟩)
    | trans x y z _ _ ih ih' =>
      rcases ih with h | ⟨hx, hy⟩ | ⟨hx, hy⟩
      · rcases ih' with h' | ⟨hy', hz⟩ | ⟨hy', hz⟩
        · exact .inl (trans _ _ _ h h')
        · exact .inr (.inl ⟨trans _ _ _ h hy', hz⟩)
        · exact .inr (.inr ⟨trans _ _ _ h hy', hz⟩)
      · rcases ih' with h' | ⟨-, hz⟩ | ⟨-, hz⟩
        · exact .inr (.inl ⟨hx, trans _ _ _ hy h'⟩)
        · exact .inr (.inl ⟨hx, hz⟩)
        · exact .inl (trans _ _ _ hx hz)
      · rcases ih' with h' | ⟨-, hz⟩ | ⟨-, hz⟩
        · exact .inr (.inr ⟨hx, trans _ _ _ hy h'⟩)
        · exact .inl (trans _ _ _ hx hz)
        · exact .inr (.inr ⟨hx, hz⟩)
  · have mono : ∀ x y, Relation.EqvGen rel x y →
        Relation.EqvGen (fun x y => rel x y ∨ x = a ∧ y = b) x y :=
      Relation.EqvGen.mono fun _ _ => Or.inl
    have pair : Relation.EqvGen (fun x y => rel x y ∨ x = a ∧ y = b) a b := .rel a b (.inr ⟨rfl, rfl⟩)
    rintro (h | ⟨hx, hy⟩ | ⟨hx, hy⟩)
    · exact mono _ _ h
    · exact .trans _ _ _ (mono _ _ hx) (.trans _ _ _ pair (mono _ _ hy))
    · exact .trans _ _ _ (mono _ _ hx) (.trans _ _ _ (.symm _ _ pair) (mono _ _ hy))

namespace UnionFind

variable {u : UnionFind} {n a b x y r r' child fuel : Nat} {ranks : Array Nat}
  {rel : Nat → Nat → Prop}

/-- The chain of parents of a number ends in a root. -/
inductive Root (u : UnionFind) : Nat → Nat → Prop
  | self {x : Nat} : u.parent x = x → Root u x x
  | step {x r : Nat} : Root u (u.parent x) r → Root u x r

theorem Root.eq_self (h : u.Root x r) (hx : u.parent x = x) : r = x := by
  induction h with
  | self => rfl
  | step _ ih => exact (ih (congrArg u.parent hx)).trans hx

theorem Root.unique (h : u.Root x r) (h' : u.Root x r') : r = r' := by
  induction h with
  | self hx => exact (h'.eq_self hx).symm
  | step h ih =>
    cases h' with
    | self hx => exact (hx ▸ h).eq_self hx
    | step h' => exact ih h'

theorem Root.parent_eq (h : u.Root x r) : u.parent r = r := by
  induction h with
  | self hx => exact hx
  | step _ ih => exact ih

/-- The rank of a number. -/
abbrev rank (u : UnionFind) (x : Nat) : Nat :=
  u.ranks.getD x 0

/-- Parents are in range, and ranks rise along every chain. -/
structure Valid (u : UnionFind) (n : Nat) : Prop where
  parents_size : u.parents.size = n
  ranks_size : u.ranks.size = n
  parent_lt : ∀ {x}, x < n → u.parent x < n
  rank_lt : ∀ {x}, u.parent x ≠ x → u.rank x < u.rank (u.parent x)

/-- How many numbers have a greater rank, which bounds the length of a chain. -/
def above (u : UnionFind) (n x : Nat) : Nat :=
  ((Finset.range n).filter fun y => u.rank x < u.rank y).card

/-- The loop of a lookup, from one test of its condition to its end: it goes on at the grandparent, which has become
the parent, and ends at a number that is its own parent. -/
inductive Lookup : UnionFind → Nat → UnionFind → Nat → Prop
  | root {u : UnionFind} {x : Nat} : u.parent x = x → Lookup u x u x
  | step {u u' : UnionFind} {x r : Nat} : u.parent x ≠ x →
      Lookup { u with parents := u.parents.setIfInBounds x (u.parent (u.parent x)) } (u.parent (u.parent x)) u' r →
      Lookup u x u' r

/-- Chains may have become shorter, but they end in the same roots, and the ranks are the same. -/
structure Kept (u u' : UnionFind) (n : Nat) : Prop where
  valid : u'.Valid n
  root_iff : ∀ x r, u'.Root x r ↔ u.Root x r
  ranks : u'.ranks = u.ranks

/-- One root goes below another one, and ranks rise towards it. -/
structure Joins (u u' : UnionFind) (child r : Nat) : Prop where
  root : ∀ x y, u.Root x y → u'.Root x (if y = child then r else y)
  rank_le : u.rank child ≤ u.rank r
  rank_self : u'.rank r = max (u.rank r) (u.rank child + 1)
  rank_ne : ∀ y, y ≠ r → u'.rank y = u.rank y

namespace Kept

theorem refl (h : u.Valid n) : u.Kept u n := ⟨h, fun _ _ => Iff.rfl, rfl⟩

theorem trans {v w : UnionFind} (h : u.Kept v n) (h' : v.Kept w n) : u.Kept w n :=
  ⟨h'.valid, fun x r => (h'.root_iff x r).trans (h.root_iff x r), h'.ranks.trans h.ranks⟩

theorem rank_eq {v : UnionFind} (h : u.Kept v n) (x : Nat) : v.rank x = u.rank x := by
  rw [rank, h.ranks]

theorem joins {v w : UnionFind} (h : u.Kept v n) (hjoins : v.Joins w child r) : u.Joins w child r where
  root x y hxy := hjoins.root x y ((h.root_iff x y).mpr hxy)
  rank_le := h.rank_eq child ▸ h.rank_eq r ▸ hjoins.rank_le
  rank_self := h.rank_eq child ▸ h.rank_eq r ▸ hjoins.rank_self
  rank_ne y hy := (hjoins.rank_ne y hy).trans (h.rank_eq y)

end Kept

theorem parent_set (hchild : child < u.parents.size) (y : Nat) :
    (⟨u.parents.setIfInBounds child r, ranks⟩ : UnionFind).parent y =
      if y = child then r else u.parent y := by
  unfold parent
  rw [Array.getD_eq_getD_getElem?, Array.getD_eq_getD_getElem?]
  by_cases h : y = child
  · subst h
    simp [hchild]
  · rw [Array.getElem?_setIfInBounds_ne (Ne.symm h), if_neg h]

namespace Valid

theorem ofSize (n : Nat) : (UnionFind.ofSize n).Valid n := by
  have hself : ∀ x, (UnionFind.ofSize n).parent x = x := fun x => by
    by_cases hx : x < n <;> simp [parent, UnionFind.ofSize, hx]
  refine ⟨by simp [UnionFind.ofSize], by simp [UnionFind.ofSize], fun {x} hx => ?_, fun {x} hne => ?_⟩
  · rwa [hself]
  · exact absurd (hself x) hne

variable (h : u.Valid n)
include h

theorem above_parent_lt (hx : x < n) (hne : u.parent x ≠ x) : u.above n (u.parent x) < u.above n x := by
  have hlt := h.rank_lt hne
  apply Finset.card_lt_card
  rw [Finset.ssubset_iff_of_subset fun y hy => ?_]
  · refine ⟨u.parent x, ?_, ?_⟩
    · exact Finset.mem_filter.mpr ⟨Finset.mem_range.mpr (h.parent_lt hx), hlt⟩
    · simp
  · obtain ⟨hy, hrank⟩ := Finset.mem_filter.mp hy
    exact Finset.mem_filter.mpr ⟨hy, Nat.lt_trans hlt hrank⟩

omit h in
theorem above_lt (hx : x < n) : u.above n x < n := by
  have hsubset : (Finset.range n).filter (fun y => u.rank x < u.rank y) ⊂ Finset.range n := by
    rw [Finset.ssubset_iff_of_subset (Finset.filter_subset _ _)]
    exact ⟨x, Finset.mem_range.mpr hx, by simp⟩
  exact Nat.lt_of_lt_of_eq (Finset.card_lt_card hsubset) (Finset.card_range n)

theorem exists_root (x : Nat) : ∃ r, u.Root x r ∧ (x < n → r < n) := by
  by_cases hx : x < n
  · generalize hk : u.above n x = k
    induction k using Nat.strong_induction_on generalizing x with
    | _ k ih =>
      by_cases hroot : u.parent x = x
      · exact ⟨x, .self hroot, id⟩
      · have hlt := h.parent_lt hx
        obtain ⟨r, hr, hrlt⟩ := ih _ (hk ▸ h.above_parent_lt hx hroot) _ hlt rfl
        exact ⟨r, .step hr, fun _ => hrlt hlt⟩
  · refine ⟨x, .self ?_, fun hx' => absurd hx' hx⟩
    rw [parent, Array.getD_eq_getD_getElem?, Array.getElem?_eq_none (by rw [h.parents_size]; omega)]
    rfl

theorem root_lt (hr : u.Root x r) (hx : x < n) : r < n := by
  obtain ⟨r', hr', hlt⟩ := h.exists_root x
  exact hr.unique hr' ▸ hlt hx

/-- Ends of chains that are kept by a change are the only ones after it. -/
theorem root_iff {u' : UnionFind} (hkeep : ∀ {x r}, u.Root x r → u'.Root x r) :
    u'.Root x r ↔ u.Root x r := by
  refine ⟨fun hr => ?_, hkeep⟩
  obtain ⟨r', hr', -⟩ := h.exists_root x
  exact (hkeep hr').unique hr ▸ hr'

/-- A grandparent may take the place of a parent. -/
theorem halve (hx : x < n) (hne : u.parent x ≠ x) :
    u.Kept { u with parents := u.parents.setIfInBounds x (u.parent (u.parent x)) } n := by
  let u' : UnionFind := { u with parents := u.parents.setIfInBounds x (u.parent (u.parent x)) }
  have hparent : ∀ y, u'.parent y = if y = x then u.parent (u.parent x) else u.parent y :=
    parent_set (by rw [h.parents_size]; exact hx)
  have hrank : u.rank x < u.rank (u.parent (u.parent x)) := by
    have hlt := h.rank_lt hne
    by_cases heq : u.parent (u.parent x) = u.parent x
    · rwa [heq]
    · exact Nat.lt_trans hlt (h.rank_lt heq)
  have hvalid : u'.Valid n := by
    refine ⟨Array.size_setIfInBounds.trans h.parents_size, h.ranks_size, fun {y} hy => ?_,
      fun {y} hy => ?_⟩
    · rw [hparent]
      split
      · exact h.parent_lt (h.parent_lt hx)
      · exact h.parent_lt hy
    · rw [hparent] at hy ⊢
      split
      · rename_i heq
        exact heq ▸ hrank
      · rename_i hyx
        rw [if_neg hyx] at hy
        exact h.rank_lt hy
  refine ⟨hvalid, fun y r => (hvalid.root_iff fun {y r} hr => ?_).symm, rfl⟩
  -- a chain of the new parents is one of the old ones, with a detour at `x`
  induction hr with
  | self hy =>
    rw [hparent] at hy
    split at hy
    · rename_i y hyx
      rw [hyx] at hy
      exact absurd hrank (by simp [hy])
    · exact .self hy
  | @step y r _ ih =>
    rw [hparent] at ih
    split at ih
    · rename_i hyx
      exact hyx ▸ .step (.step ih)
    · exact .step ih

theorem findWithin (hx : x < n) (hfuel : u.above n x < fuel) :
    u.Kept (u.findWithin fuel x).1 n ∧ u.Root x (u.findWithin fuel x).2 ∧
      u.Lookup x (u.findWithin fuel x).1 (u.findWithin fuel x).2 := by
  induction fuel generalizing u x with
  | zero => exact absurd hfuel (Nat.not_lt_zero _)
  | succ fuel ih =>
    rw [UnionFind.findWithin]
    split
    · rename_i hroot
      exact ⟨.refl h, .self hroot, .root hroot⟩
    · rename_i hne
      have hhalved := h.halve hx hne
      have hp := h.parent_lt hx
      have habove : u.above n (u.parent (u.parent x)) < fuel := by
        have hlt := h.above_parent_lt hx hne
        by_cases heq : u.parent (u.parent x) = u.parent x
        · rw [heq]
          omega
        · have := h.above_parent_lt hp heq
          omega
      obtain ⟨hkept, hroot, hlookup⟩ := ih hhalved.valid (h.parent_lt hp) habove
      exact ⟨hhalved.trans hkept, .step (.step ((hhalved.root_iff _ _).mp hroot)), .step hne hlookup⟩

/-- Looking a number up comes to an end, gives its root and changes no root. -/
theorem find (hx : x < n) : u.Kept (u.find x).1 n ∧ u.Root x (u.find x).2 ∧
    u.Lookup x (u.find x).1 (u.find x).2 :=
  h.findWithin hx (Nat.lt_of_lt_of_eq (above_lt hx) h.parents_size.symm)

end Valid

/-- Two numbers have one root. -/
def Linked (u : UnionFind) (x y : Nat) : Prop :=
  ∃ r, u.Root x r ∧ u.Root y r

theorem linked_iff_eq (hx : u.Root x r) (hy : u.Root y r') : u.Linked x y ↔ r = r' :=
  ⟨fun ⟨_, hx', hy'⟩ => (hx.unique hx').trans (hy'.unique hy), fun heq => ⟨r, hx, heq ▸ hy⟩⟩

theorem Kept.linked_iff {v : UnionFind} (h : u.Kept v n) (x y : Nat) : v.Linked x y ↔ u.Linked x y :=
  exists_congr fun r => and_congr (h.root_iff x r) (h.root_iff y r)

namespace Valid

variable (h : u.Valid n)
include h

/-- A root goes below another one, whose rank is greater now. -/
theorem hang (ranks : Array Nat) (hchild : child < n) (hr : r < n) (hne : child ≠ r) (hchildRoot : u.parent child = child)
    (hroot : u.parent r = r) (hsize : ranks.size = n) (hle : u.rank child ≤ u.rank r)
    (hself : ranks.getD r 0 = max (u.rank r) (u.rank child + 1))
    (hother : ∀ y, y ≠ r → ranks.getD y 0 = u.rank y) :
    let u' : UnionFind := ⟨u.parents.setIfInBounds child r, ranks⟩
    u'.Valid n ∧ u.Joins u' child r := by
  intro u'
  have hparent : ∀ y, u'.parent y = if y = child then r else u.parent y :=
    parent_set (by rw [h.parents_size]; exact hchild)
  refine ⟨⟨Array.size_setIfInBounds.trans h.parents_size, hsize, fun {y} hy => ?_, fun {y} hy => ?_⟩,
    fun x y hy => ?_, hle, hself, hother⟩
  · rw [hparent]
    split
    · exact hr
    · exact h.parent_lt hy
  · show ranks.getD y 0 < ranks.getD (u'.parent y) 0
    rw [hparent] at hy ⊢
    split at hy
    · rename_i hyc
      rw [if_pos hyc, hyc, hother child hne, hself]
      omega
    · rename_i hyc
      rw [if_neg hyc]
      have hyr : y ≠ r := fun heq => hy (heq ▸ hroot)
      have hrise := h.rank_lt hy
      rw [hother y hyr]
      by_cases hpr : u.parent y = r
      · rw [hpr] at hrise ⊢
        omega
      · rwa [hother _ hpr]
  · induction hy with
    | @self x hx =>
      by_cases hxc : x = child
      · rw [if_pos hxc, hxc]
        refine .step ?_
        rw [hparent, if_pos rfl]
        exact .self (by rw [hparent, if_neg (Ne.symm hne), hroot])
      · rw [if_neg hxc]
        exact .self (by rw [hparent, if_neg hxc, hx])
    | @step x z _ ih =>
      by_cases hxc : x = child
      · rw [hxc, hchildRoot] at ih
        rwa [hxc]
      · refine .step ?_
        rwa [hparent, if_neg hxc]

/-- What is linked once the root of one element has gone below that of another one. -/
theorem linked_joined_iff {u' : UnionFind} {ra rb : Nat} (hra : u.Root a ra) (hrb : u.Root b rb)
    (hends : child = ra ∧ r = rb ∨ child = rb ∧ r = ra) (hjoins : u.Joins u' child r) (x y : Nat) :
    u'.Linked x y ↔ u.Linked x y ∨ u.Linked x a ∧ u.Linked b y ∨ u.Linked x b ∧ u.Linked a y := by
  obtain ⟨rx, hx, -⟩ := h.exists_root x
  obtain ⟨ry, hy, -⟩ := h.exists_root y
  rw [linked_iff_eq (hjoins.root _ _ hx) (hjoins.root _ _ hy), linked_iff_eq hx hy, linked_iff_eq hx hra,
    linked_iff_eq hrb hy, linked_iff_eq hx hrb, linked_iff_eq hra hy]
  split <;> split <;> omega

/-- Two numbers of one class stay as they are, and otherwise the root of one goes below that of the other. -/
theorem union_cases (ha : a < n) (hb : b < n) : ∃ ra rb, u.Root a ra ∧ u.Root b rb ∧ (u.union a b).1.Valid n ∧
    (ra = rb ∧ (u.union a b).2 = false ∧ u.Kept (u.union a b).1 n ∨
      ra ≠ rb ∧ (u.union a b).2 = true ∧
        ∃ child r, (child = ra ∧ r = rb ∨ child = rb ∧ r = ra) ∧ u.Joins (u.union a b).1 child r) := by
  obtain ⟨hkept₁, hra, -⟩ := h.find ha
  obtain ⟨hkept₂, hrb, -⟩ := hkept₁.valid.find hb
  have hkept := hkept₁.trans hkept₂
  have hrb := (hkept₁.root_iff _ _).mp hrb
  unfold UnionFind.union
  rcases hfind : u.find a with ⟨u₁, ra⟩
  rcases hfind' : u₁.find b with ⟨u₂, rb⟩
  simp only [hfind, hfind'] at hra hrb hkept ⊢
  have hvalid := hkept.valid
  have hraLt : ra < n := h.root_lt hra ha
  have hrbLt : rb < n := h.root_lt hrb hb
  have hpa : u₂.parent ra = ra := ((hkept.root_iff _ _).mpr hra).parent_eq
  have hpb : u₂.parent rb = rb := ((hkept.root_iff _ _).mpr hrb).parent_eq
  refine ⟨ra, rb, hra, hrb, ?_⟩
  split
  · rename_i heq
    exact ⟨hvalid, .inl ⟨heq, rfl, hkept⟩⟩
  · rename_i hne
    split
    · rename_i hlt
      obtain ⟨hvalid', hjoins⟩ := hvalid.hang u₂.ranks hraLt hrbLt hne hpa hpb hvalid.ranks_size (Nat.le_of_lt hlt)
        (Nat.max_eq_left hlt).symm fun _ _ => rfl
      exact ⟨hvalid', .inr ⟨hne, rfl, ra, rb, .inl ⟨rfl, rfl⟩, hkept.joins hjoins⟩⟩
    · split
      · rename_i hlt
        obtain ⟨hvalid', hjoins⟩ := hvalid.hang u₂.ranks hrbLt hraLt (Ne.symm hne) hpb hpa hvalid.ranks_size
          (Nat.le_of_lt hlt) (Nat.max_eq_left hlt).symm fun _ _ => rfl
        exact ⟨hvalid', .inr ⟨hne, rfl, rb, ra, .inr ⟨rfl, rfl⟩, hkept.joins hjoins⟩⟩
      · -- at equal ranks that of the upper root rises
        rename_i hle hge
        have heq : u₂.rank ra = u₂.rank rb := Nat.le_antisymm (Nat.not_lt.mp hge) (Nat.not_lt.mp hle)
        have hself : (u₂.ranks.setIfInBounds ra (u₂.ranks.getD ra 0 + 1)).getD ra 0 =
            max (u₂.rank ra) (u₂.rank rb + 1) := by
          rw [← heq, Nat.max_eq_right (Nat.le_succ _), Array.getD_eq_getD_getElem?,
            Array.getElem?_setIfInBounds_self_of_lt (by rw [hvalid.ranks_size]; exact hraLt)]
          rfl
        have hother (y : Nat) (hy : y ≠ ra) :
            (u₂.ranks.setIfInBounds ra (u₂.ranks.getD ra 0 + 1)).getD y 0 = u₂.rank y := by
          rw [rank, Array.getD_eq_getD_getElem?, Array.getElem?_setIfInBounds_ne (Ne.symm hy),
            ← Array.getD_eq_getD_getElem?]
        obtain ⟨hvalid', hjoins⟩ := hvalid.hang _ hrbLt hraLt (Ne.symm hne) hpb hpa
          (Array.size_setIfInBounds.trans hvalid.ranks_size) (Nat.le_of_eq heq.symm) hself hother
        exact ⟨hvalid', .inr ⟨hne, rfl, rb, ra, .inr ⟨rfl, rfl⟩, hkept.joins hjoins⟩⟩

/-- Merging gives one class for two and says whether they were two. -/
theorem union (ha : a < n) (hb : b < n) : (u.union a b).1.Valid n ∧
    ((u.union a b).2 = true ↔ ¬u.Linked a b) ∧
    ∀ x y, (u.union a b).1.Linked x y ↔
      u.Linked x y ∨ u.Linked x a ∧ u.Linked b y ∨ u.Linked x b ∧ u.Linked a y := by
  obtain ⟨ra, rb, hra, hrb, hvalid, ⟨heq, hsaid, hkept⟩ | ⟨hne, hsaid, child, r, hends, hjoins⟩⟩ :=
    h.union_cases ha hb
  · refine ⟨hvalid, by simp [hsaid, linked_iff_eq hra hrb, heq], fun x y => ?_⟩
    obtain ⟨rx, hx, -⟩ := h.exists_root x
    obtain ⟨ry, hy, -⟩ := h.exists_root y
    rw [hkept.linked_iff, linked_iff_eq hx hy, linked_iff_eq hx hra, linked_iff_eq hrb hy, linked_iff_eq hx hrb,
      linked_iff_eq hra hy]
    omega
  · exact ⟨hvalid, by simp [hsaid, linked_iff_eq hra hrb, hne], h.linked_joined_iff hra hrb hends hjoins⟩

theorem same (ha : a < n) (hb : b < n) : u.Kept (u.same a b).1 n ∧ ((u.same a b).2 = true ↔ u.Linked a b) := by
  obtain ⟨hkept, hra, -⟩ := h.find ha
  obtain ⟨hkept', hrb, -⟩ := hkept.valid.find hb
  have hrb := (hkept.root_iff _ _).mp hrb
  refine ⟨hkept.trans hkept', ?_⟩
  rw [linked_iff_eq hra hrb]
  exact decide_eq_true_iff

end Valid

/-- The classes of the numbers below `n` are those of the equivalence that a relation generates. -/
structure Represents (u : UnionFind) (n : Nat) (rel : Nat → Nat → Prop) : Prop where
  valid : u.Valid n
  linked_iff : ∀ x y, u.Linked x y ↔ Relation.EqvGen rel x y

namespace Represents

theorem ofSize (n : Nat) : (UnionFind.ofSize n).Represents n fun _ _ => False := by
  have hvalid := Valid.ofSize n
  refine ⟨hvalid, fun x y => ⟨?_, fun h => ?_⟩⟩
  · rintro ⟨r, hx, hy⟩
    have hself : ∀ x, (UnionFind.ofSize n).parent x = x := fun x => by
      by_cases hx : x < n <;> simp [parent, UnionFind.ofSize, hx]
    rw [← hx.eq_self (hself x), hy.eq_self (hself y)]
    exact .refl _
  · induction h with
    | rel _ _ h => exact h.elim
    | refl x =>
      obtain ⟨r, hr, -⟩ := hvalid.exists_root x
      exact ⟨r, hr, hr⟩
    | symm _ _ _ ih =>
      obtain ⟨r, hx, hy⟩ := ih
      exact ⟨r, hy, hx⟩
    | trans _ _ _ _ _ ih ih' =>
      obtain ⟨r, hx, hy⟩ := ih
      obtain ⟨r', hy', hz⟩ := ih'
      exact ⟨r, hx, hy.unique hy' ▸ hz⟩

variable (h : u.Represents n rel)
include h

theorem union (ha : a < n) (hb : b < n) :
    (u.union a b).1.Represents n fun x y => rel x y ∨ x = a ∧ y = b := by
  obtain ⟨hvalid, -, hlinked⟩ := h.valid.union ha hb
  refine ⟨hvalid, fun x y => ?_⟩
  rw [hlinked, eqvGen_or_pair_iff]
  simp only [h.linked_iff]

theorem kept {u' : UnionFind} (hkept : u.Kept u' n) : u'.Represents n rel :=
  ⟨hkept.valid, fun x y => (hkept.linked_iff x y).trans (h.linked_iff x y)⟩

theorem same (ha : a < n) (hb : b < n) : (u.same a b).1.Represents n rel ∧
    ((u.same a b).2 = true ↔ Relation.EqvGen rel a b) := by
  obtain ⟨hkept, hsame⟩ := h.valid.same ha hb
  exact ⟨h.kept hkept, hsame.trans (h.linked_iff a b)⟩

omit h in
theorem congr {rel' : Nat → Nat → Prop} (h : u.Represents n rel)
    (hrel : ∀ x y, rel x y ↔ rel' x y) : u.Represents n rel' := by
  obtain rfl : rel = rel' := funext₂ fun x y => propext (hrel x y)
  exact h

/-- Merging every number with its image. -/
theorem unionImages {image : Array Nat} (hsize : image.size ≤ n) (hlt : ∀ y ∈ image, y < n) :
    (u.unionImages image).Represents n fun x y => rel x y ∨ image[x]? = some y := by
  have hfold : ∀ (l : List (Nat × Nat)) (u : UnionFind) (rel : Nat → Nat → Prop),
      u.Represents n rel → (∀ p ∈ l, p.1 < n ∧ p.2 < n) →
      (l.foldl (fun u p => (u.union p.2 p.1).1) u).Represents n
        fun x y => rel x y ∨ (y, x) ∈ l := by
    intro l
    induction l with
    | nil => exact fun u rel h _ => h.congr fun x y => by simp
    | cons p l ih =>
      intro u rel h hl
      obtain ⟨hp, hl⟩ := List.forall_mem_cons.mp hl
      refine (ih _ _ (h.union hp.2 hp.1) hl).congr fun x y => ?_
      obtain ⟨q, v⟩ := p
      rw [List.mem_cons, Prod.mk.injEq, or_assoc, and_comm (a := x = v)]
  refine (hfold image.toList.zipIdx u rel h fun p hp => ?_).congr fun x y => ?_
  · have hget := List.mk_mem_zipIdx_iff_getElem?.mp hp
    rw [Array.getElem?_toList] at hget
    exact ⟨hlt _ (Array.mem_of_getElem? hget),
      Nat.lt_of_lt_of_le (Array.getElem?_eq_some_iff.mp hget).1 hsize⟩
  · rw [List.mk_mem_zipIdx_iff_getElem?, Array.getElem?_toList]

end Represents

end UnionFind

end RankedPlans
