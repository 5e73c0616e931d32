import RankedPlans.Proofs.Grouping
import RankedPlans.Symmetry.Refinement

/-! Ranks follow the order of their keys and stay below the number of keys, and what the sizes of cells
say about a colouring. -/

namespace RankedPlans

theorem keyLe_total (a b : List Nat) : keyLe a b = true ∨ keyLe b a = true := by
  induction a generalizing b with
  | nil => exact .inl rfl
  | cons x a ih =>
    cases b with
    | nil => exact .inr rfl
    | cons y b =>
      simp only [keyLe, Bool.or_eq_true, Bool.and_eq_true, decide_eq_true_eq, beq_iff_eq]
      rcases Nat.lt_trichotomy x y with h | h | h
      · exact .inl (.inl h)
      · exact (ih b).imp (fun hab => .inr ⟨h, hab⟩) fun hba => .inr ⟨h.symm, hba⟩
      · exact .inr (.inl h)

theorem keyLe_trans (a b c : List Nat) (hab : keyLe a b = true) (hbc : keyLe b c = true) :
    keyLe a c = true := by
  induction a generalizing b c with
  | nil => rfl
  | cons x a ih =>
    cases b with
    | nil => cases hab
    | cons y b =>
      cases c with
      | nil => cases hbc
      | cons z c =>
        simp only [keyLe, Bool.or_eq_true, Bool.and_eq_true, decide_eq_true_eq, beq_iff_eq] at hab hbc ⊢
        rcases hab with hxy | ⟨rfl, hab⟩
        · rcases hbc with hyz | ⟨rfl, -⟩
          · exact .inl (Nat.lt_trans hxy hyz)
          · exact .inl hxy
        · rcases hbc with hyz | ⟨rfl, hbc⟩
          · exact .inl hyz
          · exact .inr ⟨rfl, ih b c hab hbc⟩

theorem keyLe_antisymm {a b : List Nat} (hab : keyLe a b = true) (hba : keyLe b a = true) : a = b := by
  induction a generalizing b with
  | nil =>
    cases b with
    | nil => rfl
    | cons y b => cases hba
  | cons x a ih =>
    cases b with
    | nil => cases hab
    | cons y b =>
      simp only [keyLe, Bool.or_eq_true, Bool.and_eq_true, decide_eq_true_eq, beq_iff_eq] at hab hba
      have hxy : x = y := by omega
      rw [hxy, ih (hab.resolve_left (by omega)).2 (hba.resolve_left (by omega)).2]

/-- Ranks of the vertices of ascending keys: they begin with `rank`, follow the order of the keys and leave
no gap that would take them beyond the number of keys. -/
structure Ranked (rank : Nat) (ranked : List (List Nat × Nat)) (ranks : Array Nat) : Prop where
  low : ∀ p ∈ ranked, rank ≤ ranks.getD p.2 0
  high : ∀ p ∈ ranked, ranks.getD p.2 0 < rank + ranked.length
  first : ∀ p ∈ ranked.head?, ranks.getD p.2 0 = rank
  le_iff : ∀ p ∈ ranked, ∀ q ∈ ranked,
    (ranks.getD p.2 0 ≤ ranks.getD q.2 0 ↔ keyLe p.1 q.1 = true)

theorem getD_setIfInBounds_self {ranks : Array Nat} {v : Nat} (hv : v < ranks.size) (rank : Nat) :
    (ranks.setIfInBounds v rank).getD v 0 = rank := by
  rw [Array.getD_eq_getD_getElem?, Array.getElem?_setIfInBounds_self_of_lt hv]
  rfl

theorem getD_setIfInBounds_ne {v w : Nat} (hne : v ≠ w) (ranks : Array Nat) (rank : Nat) :
    (ranks.setIfInBounds v rank).getD w 0 = ranks.getD w 0 := by
  rw [Array.getD_eq_getD_getElem?, Array.getElem?_setIfInBounds_ne hne, ← Array.getD_eq_getD_getElem?]

theorem rankAscending_frame (rank : Nat) (ranked : List (List Nat × Nat)) (ranks : Array Nat) :
    (rankAscending rank ranked ranks).size = ranks.size ∧
      ∀ v, v ∉ ranked.map Prod.snd → (rankAscending rank ranked ranks).getD v 0 = ranks.getD v 0 := by
  fun_induction rankAscending rank ranked ranks with
  | case1 => exact ⟨rfl, fun _ _ => rfl⟩
  | case2 rank a v ranks =>
    refine ⟨Array.size_setIfInBounds, fun w hw => getD_setIfInBounds_ne ?_ ranks rank⟩
    rintro rfl
    simp at hw
  | case3 rank a v b w rest ranks ih =>
    refine ⟨ih.1.trans Array.size_setIfInBounds, fun x hx => ?_⟩
    simp only [List.map_cons, List.mem_cons, not_or] at hx
    rw [ih.2 x (by simpa using hx.2), getD_setIfInBounds_ne (Ne.symm hx.1)]

theorem rankAscending_ranked {rank : Nat} {ranked : List (List Nat × Nat)} {ranks : Array Nat}
    (hsorted : ranked.Pairwise fun p q => keyLe p.1 q.1 = true) (hnd : (ranked.map Prod.snd).Nodup)
    (hlt : ∀ p ∈ ranked, p.2 < ranks.size) :
    Ranked rank ranked (rankAscending rank ranked ranks) := by
  fun_induction rankAscending rank ranked ranks with
  | case1 => exact ⟨nofun, nofun, nofun, nofun⟩
  | case2 rank a v ranks =>
    have hv : v < ranks.size := hlt (a, v) (List.mem_singleton.mpr rfl)
    refine ⟨?_, ?_, ?_, ?_⟩
    · simp [hv]
    · simp [hv]
    · simp [hv]
    · simp [(keyLe_total a a).elim id id]
  | case3 rank a v b w rest ranks ih =>
    obtain ⟨hle, hsorted⟩ := List.pairwise_cons.mp hsorted
    obtain ⟨hv, hnd⟩ := List.nodup_cons.mp hnd
    have ih := ih hsorted hnd fun p hp => by simpa using hlt p (List.mem_cons_of_mem _ hp)
    have hself : (rankAscending (if a = b then rank else rank + 1) ((b, w) :: rest)
        (ranks.setIfInBounds v rank)).getD v 0 = rank := by
      rw [(rankAscending_frame _ _ _).2 v hv,
        getD_setIfInBounds_self (hlt (a, v) (List.mem_cons_self ..))]
    generalize rankAscending (if a = b then rank else rank + 1) ((b, w) :: rest)
      (ranks.setIfInBounds v rank) = final at ih hself
    have hfirst := ih.first (b, w) rfl
    have hab := hle (b, w) (List.mem_cons_self ..)
    have haa : keyLe a a = true := (keyLe_total a a).elim id id
    -- the first rank is met again exactly by the later vertices of the first key
    have hback : ∀ p ∈ (b, w) :: rest, (final.getD p.2 0 ≤ rank ↔ keyLe p.1 a = true) := by
      intro p hp
      have hlow := ih.low p hp
      have hiff := ih.le_iff p hp (b, w) (List.mem_cons_self ..)
      simp only at hfirst hiff
      by_cases h : a = b
      · rw [if_pos h] at hfirst
        rw [hfirst] at hiff
        rw [hiff, h]
      · rw [if_neg h] at hlow
        refine ⟨fun hle => absurd hle (by omega), fun hpa => absurd ?_ h⟩
        have hbp : keyLe b p.1 = true := by
          rcases List.mem_cons.mp hp with rfl | hp
          · exact (keyLe_total _ _).elim id id
          · exact (List.pairwise_cons.mp hsorted).1 p hp
        exact keyLe_antisymm hab (keyLe_trans _ _ _ hbp hpa)
    have hlow : ∀ p ∈ (b, w) :: rest, rank ≤ final.getD p.2 0 := by
      intro p hp
      have := ih.low p hp
      split at this <;> omega
    refine ⟨?_, ?_, ?_, ?_⟩
    · exact List.forall_mem_cons.mpr ⟨Nat.le_of_eq hself.symm, hlow⟩
    · refine List.forall_mem_cons.mpr ⟨by simp [hself], fun p hp => ?_⟩
      have := ih.high p hp
      rw [List.length_cons]
      split at this <;> omega
    · rintro p ⟨⟩
      exact hself
    · refine List.forall_mem_cons.mpr ⟨List.forall_mem_cons.mpr ⟨?_, fun q hq => ?_⟩,
        fun p hp => List.forall_mem_cons.mpr ⟨?_, ih.le_iff p hp⟩⟩
      · simp [haa]
      · simp only [hself, hlow q hq, hle q hq]
      · simp only [hself, hback p hp]

/-- Every rank below a given one is that of another vertex. -/
theorem rankAscending_dense {rank : Nat} {ranked : List (List Nat × Nat)} {ranks : Array Nat}
    (hnd : (ranked.map Prod.snd).Nodup) (hlt : ∀ p ∈ ranked, p.2 < ranks.size) {p : List Nat × Nat}
    (hp : p ∈ ranked) {r : Nat} (hr : rank ≤ r)
    (hle : r ≤ (rankAscending rank ranked ranks).getD p.2 0) :
    ∃ q ∈ ranked, (rankAscending rank ranked ranks).getD q.2 0 = r := by
  fun_induction rankAscending rank ranked ranks with
  | case1 => cases hp
  | case2 rank a v ranks =>
    obtain rfl := List.mem_singleton.mp hp
    have hself : (ranks.setIfInBounds v rank).getD v 0 = rank :=
      getD_setIfInBounds_self (hlt (a, v) hp) rank
    exact ⟨(a, v), hp, Nat.le_antisymm (Nat.le_trans (Nat.le_of_eq hself) hr) hle⟩
  | case3 rank a v b w rest ranks ih =>
    obtain ⟨hv, hnd⟩ := List.nodup_cons.mp hnd
    have hself : (rankAscending (if a = b then rank else rank + 1) ((b, w) :: rest)
        (ranks.setIfInBounds v rank)).getD v 0 = rank := by
      rw [(rankAscending_frame _ _ _).2 v hv,
        getD_setIfInBounds_self (hlt (a, v) (List.mem_cons_self ..))]
    by_cases heq : r = rank
    · exact ⟨(a, v), List.mem_cons_self .., heq ▸ hself⟩
    · rcases List.mem_cons.mp hp with rfl | hp
      · simp only at hle
        omega
      · obtain ⟨q, hq, hqr⟩ := ih hnd (fun p hp => by simpa using hlt p (List.mem_cons_of_mem _ hp)) hp
          (by split <;> omega) hle
        exact ⟨q, List.mem_cons_of_mem _ hq, hqr⟩

@[simp] theorem size_denseRanks (keys : List (List Nat)) : (denseRanks keys).size = keys.length := by
  rw [denseRanks, (rankAscending_frame _ _ _).1, Array.size_replicate]

theorem denseRanks_ranked (keys : List (List Nat)) :
    Ranked 0 (sortBy (fun a b => keyLe a.1 b.1) keys.zipIdx) (denseRanks keys) := by
  have hperm := sortBy_perm (fun a b => keyLe a.1 b.1) keys.zipIdx
  refine rankAscending_ranked ?_ ?_ fun p hp => ?_
  · exact sortBy_pairwise (fun a b c => keyLe_trans a.1 b.1 c.1) (fun a b => keyLe_total a.1 b.1) _
  · rw [(hperm.map Prod.snd).nodup_iff, List.zipIdx_map_snd]
    exact List.nodup_range'
  · obtain ⟨-, hlt, -⟩ := List.mem_zipIdx (hperm.mem_iff.mp hp)
    simpa using hlt

theorem denseRanks_lt {keys : List (List Nat)} {v : Nat} (hv : v < keys.length) :
    (denseRanks keys).getD v 0 < keys.length := by
  have hperm := sortBy_perm (fun a b => keyLe a.1 b.1) keys.zipIdx
  have hmem : (keys[v], v) ∈ keys.zipIdx := List.mk_mem_zipIdx_iff_getElem?.mpr (List.getElem?_eq_getElem hv)
  have := (denseRanks_ranked keys).high _ (hperm.mem_iff.mpr hmem)
  simpa [hperm.length_eq] using this

/-- No rank below the greatest one is left out. -/
theorem denseRanks_dense {keys : List (List Nat)} {v r : Nat} (hv : v < keys.length)
    (hr : r ≤ (denseRanks keys).getD v 0) : ∃ w < keys.length, (denseRanks keys).getD w 0 = r := by
  have hperm := sortBy_perm (fun a b => keyLe a.1 b.1) keys.zipIdx
  have hlt : ∀ p ∈ sortBy (fun a b => keyLe a.1 b.1) keys.zipIdx, p.2 < keys.length := fun p hp => by
    simpa using (List.mem_zipIdx (hperm.mem_iff.mp hp)).2.1
  have hmem : (keys[v], v) ∈ keys.zipIdx := List.mk_mem_zipIdx_iff_getElem?.mpr (List.getElem?_eq_getElem hv)
  obtain ⟨q, hq, hqr⟩ := rankAscending_dense (by
      rw [(hperm.map Prod.snd).nodup_iff, List.zipIdx_map_snd]
      exact List.nodup_range')
    (fun p hp => by simpa using hlt p hp) (hperm.mem_iff.mpr hmem) (Nat.zero_le r) hr
  exact ⟨q.2, hlt q hq, hqr⟩

/-- Ranks follow the order of the keys. -/
theorem denseRanks_le_iff {keys : List (List Nat)} {v w : Nat} {a b : List Nat}
    (hv : keys[v]? = some a) (hw : keys[w]? = some b) :
    (denseRanks keys).getD v 0 ≤ (denseRanks keys).getD w 0 ↔ keyLe a b = true := by
  have hperm := sortBy_perm (fun a b => keyLe a.1 b.1) keys.zipIdx
  exact (denseRanks_ranked keys).le_iff (a, v) (hperm.mem_iff.mpr (List.mk_mem_zipIdx_iff_getElem?.mpr hv))
    (b, w) (hperm.mem_iff.mpr (List.mk_mem_zipIdx_iff_getElem?.mpr hw))

/-- Vertices have equal ranks exactly if they have equal keys. -/
theorem denseRanks_eq_iff {keys : List (List Nat)} {v w : Nat} {a b : List Nat}
    (hv : keys[v]? = some a) (hw : keys[w]? = some b) :
    (denseRanks keys).getD v 0 = (denseRanks keys).getD w 0 ↔ a = b := by
  constructor
  · intro h
    exact keyLe_antisymm ((denseRanks_le_iff hv hw).mp (Nat.le_of_eq h))
      ((denseRanks_le_iff hw hv).mp (Nat.le_of_eq h.symm))
  · rintro rfl
    exact Nat.le_antisymm ((denseRanks_le_iff hv hw).mpr ((keyLe_total a a).elim id id))
      ((denseRanks_le_iff hw hv).mpr ((keyLe_total a a).elim id id))

namespace Coloring

theorem foldl_max_le (colors : List Nat) (n : Nat) :
    n ≤ colors.foldl (fun n c => max n (c + 1)) n ∧
      ∀ c ∈ colors, c < colors.foldl (fun n c => max n (c + 1)) n := by
  induction colors generalizing n with
  | nil => exact ⟨Nat.le_refl n, nofun⟩
  | cons c colors ih =>
    obtain ⟨hle, hlt⟩ := ih (max n (c + 1))
    rw [List.foldl_cons]
    exact ⟨by omega, List.forall_mem_cons.mpr ⟨by omega, hlt⟩⟩

theorem lt_count {colors : Array Nat} {c : Nat} (h : c ∈ colors.toList) : c < count colors := by
  rw [count, ← Array.foldl_toList]
  exact (foldl_max_le colors.toList 0).2 c h

/-- The size of a cell is the number of vertices of its colour. -/
theorem getD_cellSizes (colors : Array Nat) (c : Nat) :
    (cellSizes colors)[c]?.getD 0 = colors.toList.count c := by
  rw [cellSizes, ← Array.foldl_toList, getElem?_foldl_modify (fun c => c) (fun _ n => n + 1)]
  by_cases hc : c < count colors
  · rw [Array.getElem?_replicate, if_pos hc]
    simp [List.foldl_add_const, List.count_eq_length_filter]
  · rw [Array.getElem?_replicate, if_neg hc]
    refine (List.count_eq_zero.mpr fun hmem => hc (lt_count hmem)).symm

/-- Colourings with cells of the same sizes use each colour equally often. -/
theorem perm_of_cellSizes_eq {colors colors' : Array Nat} (h : cellSizes colors = cellSizes colors') :
    colors.toList.Perm colors'.toList := by
  rw [List.perm_iff_count]
  intro c
  rw [← getD_cellSizes, ← getD_cellSizes, h]

theorem count_eq_of_perm {colors colors' : Array Nat} (h : colors.toList.Perm colors'.toList) :
    count colors = count colors' := by
  rw [count, count, ← Array.foldl_toList, ← Array.foldl_toList]
  exact h.foldl_eq' (fun _ _ _ _ _ => by omega) 0

theorem size_cellSizes (colors : Array Nat) : (cellSizes colors).size = count colors := by
  rw [cellSizes, ← Array.foldl_toList]
  have hsize : ∀ (l : List Nat) (xs : Array Nat),
      (l.foldl (fun sizes c => sizes.modify c (· + 1)) xs).size = xs.size := by
    intro l
    induction l with
    | nil => exact fun _ => rfl
    | cons c l ih => exact fun xs => (ih _).trans Array.size_modify
  rw [hsize, Array.size_replicate]

/-- Colourings that use each colour equally often have cells of the same sizes. -/
theorem cellSizes_eq_of_perm {colors colors' : Array Nat} (h : colors.toList.Perm colors'.toList) :
    cellSizes colors = cellSizes colors' := by
  refine Array.ext_getElem? fun c => ?_
  have hcount : (cellSizes colors)[c]?.getD 0 = (cellSizes colors')[c]?.getD 0 := by
    rw [getD_cellSizes, getD_cellSizes, h.count_eq]
  have hsize : (cellSizes colors).size = (cellSizes colors').size := by
    rw [size_cellSizes, size_cellSizes, count_eq_of_perm h]
  by_cases hc : c < (cellSizes colors).size
  · rw [Array.getElem?_eq_getElem hc, Array.getElem?_eq_getElem (hsize ▸ hc)] at hcount ⊢
    exact congrArg some hcount
  · rw [Array.getElem?_eq_none (by omega), Array.getElem?_eq_none (by omega)]

theorem targetCell?_eq_none_iff {colors : Array Nat} :
    targetCell? colors = none ↔ colors.toList.Nodup := by
  rw [targetCell?, Array.findIdx?_eq_none_iff, List.nodup_iff_count]
  constructor
  · intro h c
    rw [← getD_cellSizes]
    cases hc : (cellSizes colors)[c]? with
    | none => simp
    | some n => simpa using h n (Array.mem_of_getElem? hc)
  · intro h n hn
    obtain ⟨c, hc⟩ := Array.mem_iff_getElem?.mp hn
    have := h c
    rw [← getD_cellSizes, hc] at this
    simpa using this

/-- Every colour is less than the number of vertices. -/
def InRange (colors : Array Nat) : Prop :=
  ∀ c ∈ colors.toList, c < colors.size

theorem inRange_denseRanks (keys : List (List Nat)) : InRange (denseRanks keys) := by
  intro c hc
  obtain ⟨v, hv⟩ := List.mem_iff_getElem?.mp hc
  have hlt : v < keys.length := by
    have := (List.getElem?_eq_some_iff.mp hv).1
    simpa using this
  have := denseRanks_lt hlt
  rw [Array.getElem?_toList] at hv
  rwa [Array.getD_eq_getD_getElem?, hv, Option.getD_some, ← size_denseRanks keys] at this

end Coloring

namespace ColoredGraph

theorem inRange_refineWithin (g : ColoredGraph) (fuel : Nat) {colors : Array Nat}
    (h : Coloring.InRange colors) : Coloring.InRange (g.refineWithin fuel colors) := by
  induction fuel generalizing colors with
  | zero => exact h
  | succ fuel ih =>
    rw [refineWithin]
    split
    · exact Coloring.inRange_denseRanks _
    · exact ih (Coloring.inRange_denseRanks _)

theorem inRange_refine (g : ColoredGraph) (colors : Array Nat) :
    Coloring.InRange (g.refine colors) :=
  g.inRange_refineWithin _ (Coloring.inRange_denseRanks _)

end ColoredGraph

end RankedPlans
