import Mathlib.Data.List.Sort
import RankedPlans.Proofs.Grouping
import RankedPlans.Proofs.Symmetry.UnionFind

/-! The classes that a union-find lists. All numbers are looked up, which changes no root; the numbers of one root are
a class in ascending order, and a class is listed where its least number comes up. -/

namespace RankedPlans.UnionFind

variable {u : UnionFind} {n x y r : Nat} {c : List Nat}

/-- The indices of a number in ascending order. -/
def indicesOf (roots : Array Nat) (r : Nat) : List Nat :=
  (roots.toList.zipIdx.filter (·.1 == r)).map Prod.snd

theorem mem_indicesOf {roots : Array Nat} : x ∈ indicesOf roots r ↔ roots[x]? = some r := by
  simp [indicesOf, List.mk_mem_zipIdx_iff_getElem?]

theorem zipIdx_ascending {α : Type} (l : List α) : (l.zipIdx.map Prod.snd).Pairwise (· < ·) := by
  rw [List.zipIdx_map_snd]
  exact List.pairwise_lt_range'

theorem indicesOf_ascending (roots : Array Nat) (r : Nat) : (indicesOf roots r).Pairwise (· < ·) :=
  (zipIdx_ascending _).sublist (List.filter_sublist.map _)

theorem getElem?_byRoot {roots : Array Nat} (hr : r < roots.size) : (byRoot roots)[r]? = some (indicesOf roots r) := by
  have hmodify := getElem?_foldl_modify Prod.fst (fun (p : Nat × Nat) xs => p.2 :: xs)
    roots.toList.zipIdx.reverse (Array.replicate roots.size []) r
  rw [List.foldl_reverse, List.filter_reverse, Array.getElem?_replicate, if_pos hr, Option.map_some,
    List.foldl_reverse] at hmodify
  rw [indicesOf, List.map_eq_foldr]
  exact hmodify

theorem roots_eq (u : UnionFind) : u.roots = (List.range u.parents.size).foldl
    (fun p x => ((p.1.find x).1, p.2.push (p.1.find x).2)) (u, #[]) :=
  rfl

namespace Valid

variable (h : u.Valid n)
include h

/-- Looking all numbers up gives the root of each and changes none. -/
theorem roots : u.Kept u.roots.1 n ∧ u.roots.2.size = n ∧ ∀ x r, u.roots.2[x]? = some r ↔ x < n ∧ u.Root x r := by
  -- after `k` of them, the first `k` have their roots in the list
  have hfirst : ∀ k ≤ n, ∃ v found, (List.range k).foldl
        (fun p x => ((p.1.find x).1, p.2.push (p.1.find x).2)) (u, #[]) = (v, found) ∧
      u.Kept v n ∧ found.size = k ∧ ∀ x r, found[x]? = some r ↔ x < k ∧ u.Root x r := by
    intro k hk
    induction k with
    | zero => exact ⟨u, #[], rfl, .refl h, rfl, by simp⟩
    | succ k ih =>
      obtain ⟨v, found, heq, hkept, hsize, hfound⟩ := ih (Nat.le_of_succ_le hk)
      obtain ⟨hkept', hroot, -⟩ := hkept.valid.find hk
      have hroot := (hkept.root_iff _ _).mp hroot
      rw [List.range_succ, List.foldl_append, heq]
      refine ⟨_, _, rfl, hkept.trans hkept', by simp [hsize], fun x r => ?_⟩
      rw [Array.getElem?_push, hsize]
      split
      · rename_i heq
        subst heq
        rw [Option.some.injEq]
        exact ⟨fun h => ⟨Nat.lt_succ_self _, h ▸ hroot⟩, fun h => hroot.unique h.2⟩
      · rw [hfound]
        exact and_congr_left fun _ => by omega
  obtain ⟨v, found, heq, hkept, hsize, hfound⟩ := hfirst n (Nat.le_refl n)
  have heq : u.roots = (v, found) := by rw [roots_eq, h.parents_size, heq]
  rw [heq]
  exact ⟨hkept, hsize, hfound⟩

/-- The numbers of one root are a class. -/
theorem mem_indicesOf_roots (hx : u.Root x r) (y : Nat) :
    y ∈ indicesOf u.roots.2 r ↔ y < n ∧ u.Linked x y := by
  obtain ⟨-, -, hroots⟩ := h.roots
  obtain ⟨r', hy, -⟩ := h.exists_root y
  rw [mem_indicesOf, hroots, linked_iff_eq hx hy]
  exact and_congr_right fun _ => ⟨fun hy' => hy'.unique hy, fun heq => heq ▸ hy⟩

theorem getElem?_byRoot_roots (hx : u.roots.2[x]? = some r) :
    (byRoot u.roots.2)[r]? = some (indicesOf u.roots.2 r) := by
  obtain ⟨-, hsize, hroots⟩ := h.roots
  obtain ⟨hlt, hroot⟩ := (hroots _ _).mp hx
  exact getElem?_byRoot (hsize ▸ h.root_lt hroot hlt)

/-- The lists are the classes of more than one number, each in ascending order. -/
theorem mem_classes_iff : c ∈ u.classes.2 ↔
    c.Pairwise (· < ·) ∧ 1 < c.length ∧ ∃ x < n, ∀ y, y ∈ c ↔ y < n ∧ u.Linked x y := by
  obtain ⟨-, -, hroots⟩ := h.roots
  simp only [classes, List.mem_filterMap, Prod.exists, List.mk_mem_zipIdx_iff_getElem?, Array.getElem?_toList]
  constructor
  · rintro ⟨r, x, hx, hc⟩
    obtain ⟨hlt, hroot⟩ := (hroots x r).mp hx
    rw [h.getElem?_byRoot_roots hx] at hc
    split at hc
    · rename_i least other rest heq
      have hindices := Option.some.inj heq
      split at hc
      · obtain rfl := Option.some.inj hc
        rw [← hindices]
        exact ⟨indicesOf_ascending _ _, by simp [hindices], x, hlt, h.mem_indicesOf_roots hroot⟩
      · cases hc
    · cases hc
  · rintro ⟨hascending, hlength, x, -, hmem⟩
    obtain - | ⟨least, - | ⟨other, rest⟩⟩ := c
    · cases hlength
    · exact absurd hlength (Nat.lt_irrefl 1)
    -- the class is listed at its first number
    obtain ⟨hleast, r, hroot, hroot'⟩ := (hmem least).mp List.mem_cons_self
    have hget := (hroots least r).mpr ⟨hleast, hroot'⟩
    have hindices : indicesOf u.roots.2 r = least :: other :: rest :=
      (indicesOf_ascending _ _).eq_of_mem_iff hascending fun y =>
        (h.mem_indicesOf_roots hroot y).trans (hmem y).symm
    refine ⟨r, least, hget, ?_⟩
    rw [h.getElem?_byRoot_roots hget, hindices]
    exact if_pos rfl

end Valid

theorem filterMap_sublist_map {α β : Type} {f : α → Option β} {k : α → β} (h : ∀ a b, f a = some b → b = k a)
    (l : List α) : (l.filterMap f).Sublist (l.map k) := by
  induction l with
  | nil => exact .slnil
  | cons a l ih =>
    rw [List.filterMap_cons]
    split
    · exact ih.cons _
    · rename_i b hb
      exact h a b hb ▸ ih.cons_cons _

/-- The classes stand in the order of their least numbers. -/
theorem classes_ordered (u : UnionFind) : (u.classes.2.map (·.headD 0)).Pairwise (· < ·) := by
  refine (zipIdx_ascending u.roots.2.toList).sublist ?_
  rw [classes, List.map_filterMap]
  refine filterMap_sublist_map ?_ _
  rintro ⟨r, x⟩ least heq
  obtain ⟨c, hc, rfl⟩ := Option.map_eq_some_iff.mp heq
  simp only at hc
  split at hc
  · split at hc
    · rename_i hleast
      obtain rfl := Option.some.inj hc
      exact hleast
    · cases hc
  · cases hc

end RankedPlans.UnionFind
