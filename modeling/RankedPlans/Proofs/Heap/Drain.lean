import RankedPlans.Proofs.Heap.Balance

/-! Taking least roots until no heap is left lists every element once and by ascending key. -/

namespace RankedPlans.LeftistHeap

variable {κ ι : Type} {le : κ → κ → Bool} {heaps : Array (LeftistHeap κ ι)} {h : LeftistHeap κ ι}

theorem swapRemove_perm {α : Type} {xs : Array α} {i : Nat} {x : α} (hx : xs[i]? = some x) :
    (x :: (swapRemove xs i).toList).Perm xs.toList := by
  obtain ⟨list⟩ := xs
  obtain rfl | ⟨front, last, rfl⟩ := List.eq_nil_or_concat list
  · simp at hx
  have hset : (swapRemove ⟨front ++ [last]⟩ i).toList = ((front ++ [last]).set i last).dropLast := by
    simp [swapRemove]
  rw [List.concat_eq_append] at hx ⊢
  rw [hset]
  simp only [List.getElem?_toArray] at hx
  by_cases hi : i < front.length
  · rw [List.getElem?_append_left hi, List.getElem?_eq_getElem hi] at hx
    obtain rfl := Option.some.inj hx
    rw [List.set_append_left _ _ hi, List.dropLast_concat, List.set_eq_take_append_cons_drop, if_pos hi]
    have hswap : (front[i] :: (front.take i ++ last :: front.drop (i + 1))).Perm
        (last :: (front.take i ++ front[i] :: front.drop (i + 1))) :=
      ((List.perm_middle.cons _).trans (List.Perm.swap ..)).trans (List.perm_middle.symm.cons _)
    rw [List.getElem_cons_drop, List.take_append_drop] at hswap
    exact hswap.trans (List.perm_append_singleton last front).symm
  · obtain rfl : i = front.length := by
      have := (List.getElem?_eq_some_iff.mp hx).1
      rw [List.length_append, List.length_singleton] at this
      omega
    rw [List.getElem?_append_right (Nat.le_refl _)] at hx
    obtain rfl : last = x := by simpa using hx
    simpa using (List.perm_append_singleton last front).symm

theorem fold_eq_foldl_range {α : Type} (n : Nat) (f : (i : Nat) → i < n → α → α) (g : α → Nat → α)
    (h : ∀ i hi a, f i hi a = g a i) (a : α) : n.fold f a = (List.range n).foldl g a := by
  induction n with
  | zero => rfl
  | succ n ih =>
    rw [Nat.fold_succ, ih (fun i hi => f i (by omega)) (fun i hi => h i _), List.range_succ, h]
    simp

/-- A root that is not beaten by another comes no later than it. -/
theorem beats_eq_false_iff {s r s' r' : Nat} {k k' : κ} {x x' : ι} {a b a' b' : LeftistHeap κ ι} :
    beats le (node s r k x a b) (node s' r' k' x' a' b') = false ↔ le k' k = true := by
  simp [beats]

theorem beats_trans (hle : TotalPreorder le) {best : LeftistHeap κ ι} {other : LeftistHeap κ ι} (hh : h ≠ nil)
    (hbest : best ≠ nil) (hbeats : beats le h best = true) (hother : beats le other best = false) :
    beats le other h = false := by
  cases h with
  | nil => exact absurd rfl hh
  | node s r k x a b =>
    cases best with
    | nil => exact absurd rfl hbest
    | node s' r' k' x' a' b' =>
      cases other with
      | nil => rfl
      | node s'' r'' k'' x'' a'' b'' =>
        rw [beats_eq_false_iff] at hother ⊢
        have hnot : ¬le k' k = true := by simpa [beats] using hbeats
        exact hle.trans _ _ _ ((hle.total k k').resolve_right hnot) hother

/-- The position of the root that comes first, of the best one so far and a new one. -/
def better (le : κ → κ → Bool) (heaps : Array (LeftistHeap κ ι)) (best i : Nat) : Nat :=
  if beats le (heaps.getD i nil) (heaps.getD best nil) then i else best

theorem leastPosition_eq (le : κ → κ → Bool) (heaps : Array (LeftistHeap κ ι)) :
    leastPosition le heaps = (List.range heaps.size).foldl (better le heaps) 0 :=
  fold_eq_foldl_range _ _ _ (fun i hi best => by simp [better, hi]) 0

/-- No root comes strictly before the one that is found. -/
theorem leastPosition_spec (hle : TotalPreorder le) (hne : ∀ h ∈ heaps, h ≠ nil) (hsize : 0 < heaps.size) :
    ∃ h, heaps[leastPosition le heaps]? = some h ∧ ∀ other ∈ heaps, beats le other h = false := by
  have hget : ∀ i < heaps.size, heaps.getD i nil ≠ nil := by
    intro i hi
    exact hne _ (by simp [hi])
  have hbest : ∀ n ≤ heaps.size, (List.range n).foldl (better le heaps) 0 < heaps.size ∧
      ∀ j < n, beats le (heaps.getD j nil) (heaps.getD ((List.range n).foldl (better le heaps) 0) nil) = false := by
    -- The induction is on the roots that have been looked at: none of them beats the best one so far.
    intro n hn
    induction n with
    | zero => exact ⟨hsize, nofun⟩
    | succ n ih =>
      obtain ⟨hlt, hall⟩ := ih (by omega)
      rw [List.range_succ, List.foldl_append, List.foldl_cons, List.foldl_nil]
      generalize (List.range n).foldl (better le heaps) 0 = best at hlt hall
      by_cases hbeats : beats le (heaps.getD n nil) (heaps.getD best nil) = true
      · rw [better, if_pos hbeats]
        refine ⟨hn, fun j hj => ?_⟩
        rcases Nat.lt_succ_iff_lt_or_eq.mp hj with hj | rfl
        · exact beats_trans hle (hget n hn) (hget best hlt) hbeats (hall j hj)
        · cases heaps.getD j nil with
          | nil => rfl
          | node => exact beats_eq_false_iff.mpr (hle.refl _)
      · rw [better, if_neg hbeats]
        refine ⟨hlt, fun j hj => ?_⟩
        rcases Nat.lt_succ_iff_lt_or_eq.mp hj with hj | rfl
        · exact hall j hj
        · exact Bool.eq_false_iff.mpr hbeats
  obtain ⟨hlt, hall⟩ := hbest heaps.size (Nat.le_refl _)
  rw [← leastPosition_eq] at hlt hall
  refine ⟨heaps[leastPosition le heaps], Array.getElem?_eq_getElem hlt, fun other hother => ?_⟩
  obtain ⟨j, hj, rfl⟩ := Array.mem_iff_getElem.mp hother
  simpa [hj, hlt] using hall j hj

/-- The elements of some heaps. -/
def pool (heaps : Array (LeftistHeap κ ι)) : List (κ × ι) :=
  heaps.toList.flatMap toList

theorem toList_children (serial rank : Nat) (key : κ) (item : ι) (left right : LeftistHeap κ ι) :
    (node serial rank key item left right).children.flatMap toList = left.toList ++ right.toList := by
  cases left <;> cases right <;> simp [children, serial?, toList]

/-- Taking a root out leaves all other elements. -/
theorem pool_takeRoot {i serial rank : Nat} {key : κ} {item : ι} {left right : LeftistHeap κ ι}
    (hget : heaps[i]? = some (node serial rank key item left right)) :
    ((key, item) :: pool (swapRemove heaps i ++ (node serial rank key item left right).children)).Perm
      (pool heaps) := by
  rw [pool, Array.toList_appendList, List.flatMap_append, toList_children]
  have hperm := (swapRemove_perm hget).flatMap_right toList
  rw [List.flatMap_cons, toList] at hperm
  refine List.Perm.trans ?_ hperm
  rw [List.cons_append]
  exact List.perm_append_comm.cons _

/-- Heaps with elements, each in order: what a drain goes through. -/
structure Frontier (le : κ → κ → Bool) (heaps : Array (LeftistHeap κ ι)) : Prop where
  ne_nil : ∀ h ∈ heaps, h ≠ nil
  ordered : ∀ h ∈ heaps, h.Ordered le

theorem Frontier.takeRoot {i serial rank : Nat} {key : κ} {item : ι} {left right : LeftistHeap κ ι}
    (hf : Frontier le heaps) (hget : heaps[i]? = some (node serial rank key item left right)) :
    Frontier le (swapRemove heaps i ++ (node serial rank key item left right).children) := by
  have hcases : ∀ h ∈ swapRemove heaps i ++ (node serial rank key item left right).children,
      h ∈ heaps ∨ h ∈ (node serial rank key item left right).children := by
    intro h hh
    rw [← Array.mem_toList_iff, Array.toList_appendList, List.mem_append] at hh
    exact hh.imp_left fun hh => Array.mem_toList_iff.mp ((swapRemove_perm hget).subset (List.mem_cons_of_mem _ hh))
  have hroot := hf.ordered _ (Array.mem_of_getElem? hget)
  constructor
  · intro h hh
    rcases hcases h hh with hh | hh
    · exact hf.ne_nil h hh
    · rintro rfl
      simp [children, serial?] at hh
  · intro h hh
    rcases hcases h hh with hh | hh
    · exact hf.ordered h hh
    · obtain rfl | rfl : h = left ∨ h = right := by simpa using (List.mem_filter.mp hh).1
      · exact hroot.2.2.1
      · exact hroot.2.2.2

/-- A drain of enough steps lists the elements of all heaps by ascending key. -/
theorem drainWithin_spec (hle : TotalPreorder le) (fuel : Nat) (hf : Frontier le heaps)
    (hfuel : (pool heaps).length = fuel) : (drainWithin le fuel heaps).Perm (pool heaps) ∧
      (drainWithin le fuel heaps).Pairwise fun p q => le p.1 q.1 = true := by
  -- The induction is on the elements that are left. No root beats the one taken, and below a root no key is smaller.
  induction fuel generalizing heaps with
  | zero =>
    rw [List.length_eq_zero_iff.mp hfuel]
    exact ⟨List.Perm.refl _, List.Pairwise.nil⟩
  | succ fuel ih =>
    have hsize : 0 < heaps.size := by
      refine Nat.pos_of_ne_zero fun hzero => ?_
      rw [Array.size_eq_zero_iff.mp hzero] at hfuel
      cases hfuel
    obtain ⟨h, hget, hleast⟩ := leastPosition_spec hle hf.ne_nil hsize
    cases h with
    | nil => exact absurd rfl (hf.ne_nil _ (Array.mem_of_getElem? hget))
    | node serial rank key item left right =>
      have hpool := pool_takeRoot hget
      have hlength := hpool.length_eq
      rw [List.length_cons, hfuel] at hlength
      obtain ⟨hperm, hasc⟩ := ih (hf.takeRoot hget) (Nat.succ.inj hlength)
      simp only [drainWithin, hget]
      refine ⟨(hperm.cons _).trans hpool, List.pairwise_cons.mpr ⟨fun p hp => ?_, hasc⟩⟩
      have hmem : p ∈ pool heaps := hpool.subset (List.mem_cons_of_mem _ (hperm.subset hp))
      obtain ⟨other, hother, hp⟩ := List.mem_flatMap.mp hmem
      have hother := Array.mem_toList_iff.mp hother
      have hbeats := hleast other hother
      cases other with
      | nil => cases hp
      | node =>
        exact hle.trans _ _ _ (beats_eq_false_iff.mp hbeats) ((hf.ordered _ hother).le_root hle p hp)

/-- Draining an ordered heap lists its elements by ascending key. -/
theorem drain_spec (hle : TotalPreorder le) (hh : h.Ordered le) :
    (h.drain le).Perm h.toList ∧ (h.drain le).Pairwise fun p q => le p.1 q.1 = true := by
  cases h with
  | nil => exact ⟨List.Perm.refl _, List.Pairwise.nil⟩
  | node serial rank key item left right =>
    have hpool : pool #[node serial rank key item left right] =
        (node serial rank key item left right).toList := by
      simp [pool]
    have hf : Frontier le #[node serial rank key item left right] := by
      constructor <;> simp [hh]
    have hspec := drainWithin_spec hle _ hf rfl
    rwa [hpool, length_toList] at hspec

end RankedPlans.LeftistHeap
