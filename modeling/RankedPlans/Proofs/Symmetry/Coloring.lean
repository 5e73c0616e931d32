import Mathlib.Data.Fintype.EquivFin
import Mathlib.Data.List.FinRange
import Mathlib.Data.Finset.Card
import RankedPlans.Proofs.Symmetry.ColoredGraph
import RankedPlans.Proofs.Symmetry.Refinement

/-! Colourings that a permutation of the vertices carries to each other, and colourings that are finer than
others and keep their order. Refinement and setting a vertex apart make a colouring finer, and an
automorphism carries their results along. -/

namespace RankedPlans

/-- Numbers in the same order that leave out none are the same numbers. -/
theorem eq_of_dense {α : Type} {f g : α → Nat} (hle : ∀ v w, f v ≤ f w ↔ g v ≤ g w)
    (hf : ∀ v, ∀ r ≤ f v, ∃ w, f w = r) (hg : ∀ v, ∀ r ≤ g v, ∃ w, g w = r) (v : α) : f v = g v := by
  -- a number that one side has and the other side skips would turn up at a smaller one
  generalize hk : f v = k
  induction k using Nat.strong_induction_on generalizing v with
  | _ k ih =>
    subst hk
    rcases Nat.lt_trichotomy (f v) (g v) with hlt | heq | hlt
    · obtain ⟨w, hw⟩ := hg v (f v) (by omega)
      have hwv := hle v w
      have := ih (f w) (by omega) w rfl
      omega
    · exact heq
    · obtain ⟨w, hw⟩ := hf v (g v) (by omega)
      have hwv := hle v w
      have := ih (f w) (by omega) w rfl
      omega

namespace Coloring

variable {n : Nat} {σ τ : Equiv.Perm (Fin n)} {colors colors' colors'' : Array Nat}
  {coarse coarse' fine fine' : Array Nat} {v w c : Nat}

/-- The colour of each vertex is that of its image under another colouring. -/
structure Carried (σ : Equiv.Perm (Fin n)) (colors colors' : Array Nat) : Prop where
  size_eq : colors.size = n
  size_eq' : colors'.size = n
  color : ∀ v : Fin n, colors'.getD (σ v) 0 = colors.getD v 0

theorem toList_eq_ofFn (h : colors.size = n) :
    colors.toList = List.ofFn fun v : Fin n => colors.getD v 0 := by
  apply List.ext_getElem
  · simp [h]
  · intro v hv hv'
    have hlt : v < colors.size := by simpa using hv
    simp [hlt]

theorem mem_members : v ∈ members colors c ↔ v < colors.size ∧ colors.getD v 0 = c := by
  rw [members, List.mem_filter, List.mem_range, Array.getD_eq_getD_getElem?]
  refine and_congr_right fun hv => ?_
  rw [Array.getElem?_eq_getElem hv]
  simp

namespace Carried

theorem one (h : colors.size = n) : Carried (1 : Equiv.Perm (Fin n)) colors colors :=
  ⟨h, h, fun _ => rfl⟩

theorem trans (h : Carried σ colors colors') (h' : Carried τ colors' colors'') :
    Carried (τ * σ) colors colors'' :=
  ⟨h.size_eq, h'.size_eq', fun v => (h'.color (σ v)).trans (h.color v)⟩

theorem inv (h : Carried σ colors colors') : Carried σ⁻¹ colors' colors := by
  refine ⟨h.size_eq', h.size_eq, fun v => ?_⟩
  rw [← h.color, show σ (σ⁻¹ v) = v from σ.apply_symm_apply v]

theorem unique (h : Carried σ colors colors') (h' : Carried σ colors colors'') : colors' = colors'' := by
  have heq : ∀ v : Fin n, colors'.getD v 0 = colors''.getD v 0 := fun v => by
    rw [← σ.apply_symm_apply v, h.color, h'.color]
  rw [← Array.toList_inj, toList_eq_ofFn h.size_eq', toList_eq_ofFn h'.size_eq']
  exact congrArg List.ofFn (funext heq)

theorem perm (h : Carried σ colors colors') : colors.toList.Perm colors'.toList := by
  rw [toList_eq_ofFn h.size_eq, toList_eq_ofFn h.size_eq']
  have hcomp : (fun v : Fin n => colors.getD v 0) = (fun v : Fin n => colors'.getD v 0) ∘ σ :=
    funext fun v => (h.color v).symm
  rw [hcomp]
  exact Equiv.Perm.ofFn_comp_perm σ _

theorem getElem?_eq (h : Carried σ colors colors') (v : Fin n) : colors'[(σ v : Nat)]? = colors[(v : Nat)]? := by
  have hcolor := h.color v
  have hlt : (v : Nat) < colors.size := h.size_eq.symm ▸ v.isLt
  have hlt' : (σ v : Nat) < colors'.size := h.size_eq'.symm ▸ (σ v).isLt
  rw [Array.getD_eq_getD_getElem?, Array.getD_eq_getD_getElem?, Array.getElem?_eq_getElem hlt,
    Array.getElem?_eq_getElem hlt'] at hcolor
  rw [Array.getElem?_eq_getElem hlt, Array.getElem?_eq_getElem hlt']
  exact congrArg some hcolor

theorem cellSizes_eq (h : Carried σ colors colors') : cellSizes colors = cellSizes colors' :=
  cellSizes_eq_of_perm h.perm

theorem targetCell?_eq (h : Carried σ colors colors') : targetCell? colors = targetCell? colors' := by
  rw [targetCell?, targetCell?, h.cellSizes_eq]

theorem mem_members_iff (h : Carried σ colors colors') (v : Fin n) :
    (σ v : Nat) ∈ members colors' c ↔ (v : Nat) ∈ members colors c := by
  rw [mem_members, mem_members, h.size_eq, h.size_eq', h.color]
  exact and_congr_left fun _ => iff_of_true (σ v).isLt v.isLt

/-- Keys that are carried along have ranks that are. -/
theorem denseRanks {keys keys' : List (List Nat)} (hlength : keys.length = n)
    (hlength' : keys'.length = n) (h : ∀ v : Fin n, keys'[(σ v : Nat)]? = keys[(v : Nat)]?) :
    Carried σ (denseRanks keys) (RankedPlans.denseRanks keys') := by
  refine ⟨by rw [size_denseRanks, hlength], by rw [size_denseRanks, hlength'], fun v => ?_⟩
  have hkey : ∀ v : Fin n, keys[(v : Nat)]? = some (keys.getD v []) := fun v => by
    rw [List.getD_eq_getElem?_getD, List.getElem?_eq_getElem (by omega), Option.getD_some]
  refine eq_of_dense (f := fun v : Fin n => (RankedPlans.denseRanks keys').getD (σ v) 0)
    (g := fun v : Fin n => (RankedPlans.denseRanks keys).getD v 0) (fun v w => ?_)
    (fun v r hr => ?_) (fun v r hr => ?_) v
  · rw [denseRanks_le_iff (hkey v) (hkey w),
      denseRanks_le_iff ((h v).trans (hkey v)) ((h w).trans (hkey w))]
  · obtain ⟨w, hw, hwr⟩ := denseRanks_dense (by rw [hlength']; exact (σ v).isLt) hr
    refine ⟨σ.symm ⟨w, hlength' ▸ hw⟩, ?_⟩
    rw [σ.apply_symm_apply]
    exact hwr
  · obtain ⟨w, hw, hwr⟩ := denseRanks_dense (by rw [hlength]; exact v.isLt) hr
    exact ⟨⟨w, hlength ▸ hw⟩, hwr⟩

end Carried

/-- Vertices of different colours keep their order, and some of equal colours may get different ones. -/
structure Finer (coarse fine : Array Nat) : Prop where
  size_eq : fine.size = coarse.size
  lt : ∀ {v w}, v < coarse.size → w < coarse.size → coarse.getD v 0 < coarse.getD w 0 →
    fine.getD v 0 < fine.getD w 0

namespace Finer

theorem refl (colors : Array Nat) : Finer colors colors :=
  ⟨rfl, fun _ _ => id⟩

theorem trans {finest : Array Nat} (h : Finer coarse fine) (h' : Finer fine finest) :
    Finer coarse finest :=
  ⟨h'.size_eq.trans h.size_eq, fun hv hw hlt =>
    h'.lt (h.size_eq.symm ▸ hv) (h.size_eq.symm ▸ hw) (h.lt hv hw hlt)⟩

theorem le_of_le (h : Finer coarse fine) (hv : v < coarse.size) (hw : w < coarse.size)
    (hle : fine.getD v 0 ≤ fine.getD w 0) : coarse.getD v 0 ≤ coarse.getD w 0 :=
  Nat.le_of_not_lt fun hlt => Nat.not_lt.mpr hle (h.lt hw hv hlt)

theorem eq_of_eq (h : Finer coarse fine) (hv : v < coarse.size) (hw : w < coarse.size)
    (heq : fine.getD v 0 = fine.getD w 0) : coarse.getD v 0 = coarse.getD w 0 :=
  Nat.le_antisymm (h.le_of_le hv hw (Nat.le_of_eq heq)) (h.le_of_le hw hv (Nat.le_of_eq heq.symm))

/-- Ranks of keys that begin with the colour. -/
theorem denseRanks {keys : List (List Nat)} (hlength : keys.length = coarse.size)
    (h : ∀ v < coarse.size, ∃ rest, keys[v]? = some (coarse.getD v 0 :: rest)) :
    Finer coarse (denseRanks keys) := by
  refine ⟨by rw [size_denseRanks, hlength], fun {v w} hv hw hlt => ?_⟩
  obtain ⟨rest, hkey⟩ := h v hv
  obtain ⟨rest', hkey'⟩ := h w hw
  rw [← Nat.not_le, denseRanks_le_iff hkey' hkey]
  intro hle
  simp only [keyLe, Bool.or_eq_true, Bool.and_eq_true, decide_eq_true_eq, beq_iff_eq] at hle
  omega

end Finer

/-- A vertex that is finer coloured than its image allows would have too many vertices below it. -/
theorem Carried.not_lt_of_finer (h : Finer coarse fine) (h' : Finer coarse' fine')
    (hτ : Carried τ coarse coarse') (hσ : Carried σ fine fine') (v : Fin n) :
    ¬coarse.getD v 0 < coarse'.getD (σ v) 0 := by
  intro hlt
  have hsize : ∀ u : Fin n, (u : Nat) < coarse.size := fun u => hτ.size_eq.symm ▸ u.isLt
  have hsize' : ∀ u : Fin n, (u : Nat) < coarse'.size := fun u => hτ.size_eq'.symm ▸ u.isLt
  let below := fun colors : Array Nat => Finset.univ.filter fun u : Fin n =>
    colors.getD u 0 < coarse'.getD (σ v) 0
  -- `τ` makes the sets below the image's colour equally large, `σ` maps one properly into the other
  have hcard : (below coarse').card = (below coarse).card := by
    have hmap : below coarse' = (below coarse).map τ.toEmbedding := by
      ext u
      simp only [below, Finset.mem_filter, Finset.mem_univ, true_and, Finset.mem_map_equiv]
      rw [← hτ.color, τ.apply_symm_apply]
    rw [hmap, Finset.card_map]
  have hstrict : (below coarse').map σ.symm.toEmbedding ⊂ below coarse := by
    rw [Finset.ssubset_iff_of_subset fun x hx => ?_]
    · refine ⟨v, by simpa [below] using hlt, fun hv => ?_⟩
      simp [below] at hv
    · obtain ⟨u, hu, rfl⟩ := Finset.mem_map.mp hx
      have hu := (Finset.mem_filter.mp hu).2
      have hfine := h'.lt (hsize' u) (hsize' (σ v)) hu
      rw [hσ.color, ← σ.apply_symm_apply u, hσ.color] at hfine
      have hle := h.le_of_le (hsize (σ.symm u)) (hsize v) (Nat.le_of_lt hfine)
      exact Finset.mem_filter.mpr ⟨Finset.mem_univ _, Nat.lt_of_le_of_lt hle hlt⟩
  have := Finset.card_lt_card hstrict
  rw [Finset.card_map] at this
  omega

/-- A permutation that carries the finer colourings carries the coarser ones, if these have equal cells. -/
theorem Carried.of_finer (h : Finer coarse fine) (h' : Finer coarse' fine')
    (hτ : Carried τ coarse coarse') (hσ : Carried σ fine fine') : Carried σ coarse coarse' := by
  refine ⟨hτ.size_eq, hτ.size_eq', fun v => ?_⟩
  have hle := hτ.not_lt_of_finer h h' hσ v
  have hge := hτ.inv.not_lt_of_finer h' h hσ.inv (σ v)
  rw [show σ⁻¹ (σ v) = v from σ.symm_apply_apply v] at hge
  omega

section Individualize

theorem getElem?_individualize_keys (hw : w < colors.size) (v : Nat) :
    (colors.toList.zipIdx.map fun (c, u) => [c, if u = v then 0 else 1])[w]? =
      some [colors.getD w 0, if w = v then 0 else 1] := by
  simp [hw]

theorem finer_individualize (colors : Array Nat) (v : Nat) : Finer colors (individualize colors v) :=
  .denseRanks (by simp) fun _ hw => ⟨_, getElem?_individualize_keys hw v⟩

@[simp] theorem size_individualize (colors : Array Nat) (v : Nat) :
    (individualize colors v).size = colors.size :=
  (finer_individualize colors v).size_eq

/-- The vertex set apart goes below the rest of its cell. -/
theorem individualize_lt (hv : v < colors.size) (hw : w < colors.size) (hne : w ≠ v)
    (heq : colors.getD w 0 = colors.getD v 0) :
    (individualize colors v).getD v 0 < (individualize colors v).getD w 0 := by
  rw [← Nat.not_le, individualize, denseRanks_le_iff (getElem?_individualize_keys hw v)
    (getElem?_individualize_keys hv v)]
  simp [keyLe, heq, hne]

theorem carried_individualize (h : Carried σ colors colors') (v : Fin n) :
    Carried σ (individualize colors v) (individualize colors' (σ v)) := by
  refine .denseRanks (by simp [h.size_eq]) (by simp [h.size_eq']) fun w => ?_
  rw [getElem?_individualize_keys (by rw [h.size_eq']; exact (σ w).isLt),
    getElem?_individualize_keys (by rw [h.size_eq]; exact w.isLt), h.color]
  simp [Fin.val_inj]

/-- Vertices of one colour give cells of the same sizes when they are set apart. -/
theorem carried_individualize_swap (hsize : colors.size = n) (v w : Fin n)
    (heq : colors.getD v 0 = colors.getD w 0) :
    Carried (Equiv.swap v w) (individualize colors v) (individualize colors w) := by
  have hswap : Carried (Equiv.swap v w) colors colors := by
    refine ⟨hsize, hsize, fun u => ?_⟩
    rw [Equiv.swap_apply_def]
    split_ifs with hv hw
    · rw [hv, heq]
    · rw [hw, heq]
    · rfl
  have := carried_individualize hswap v
  rwa [Equiv.swap_apply_left] at this

/-- A permutation that carries one vertex set apart to another one takes the vertex there. -/
theorem Carried.apply_eq (v w : Fin n) (hsize : colors.size = n)
    (heq : colors.getD v 0 = colors.getD w 0)
    (h : Carried σ (individualize colors v) (individualize colors w)) :
    Carried σ colors colors ∧ σ v = w := by
  have hkept : Carried σ colors colors :=
    .of_finer (finer_individualize _ _) (finer_individualize _ _) (.one hsize) h
  refine ⟨hkept, ?_⟩
  by_contra hne
  -- each of the two vertices would be below the other one
  have hv := (carried_individualize hkept v).unique h
  have hcolor := (hkept.color v).trans heq
  have hlt := individualize_lt (v := w) (w := σ v) (by omega) (by omega)
    (fun h => hne (Fin.ext h)) hcolor
  have hlt' := individualize_lt (v := σ v) (w := w) (by omega) (by omega)
    (fun h => hne (Fin.ext h.symm)) hcolor.symm
  rw [hv] at hlt'
  omega

end Individualize

/-- The number of colours in use. -/
def distinct (n : Nat) (colors : Array Nat) : Nat :=
  (Finset.univ.image fun v : Fin n => colors.getD v 0).card

theorem distinct_le (n : Nat) (colors : Array Nat) : distinct n colors ≤ n := by
  refine Nat.le_trans Finset.card_image_le ?_
  rw [Finset.card_univ, Fintype.card_fin]

/-- Vertices of one colour that are told apart bring a new colour. -/
theorem Finer.distinct_lt (h : Finer coarse fine) (hsize : coarse.size = n) (v w : Fin n)
    (heq : coarse.getD v 0 = coarse.getD w 0) (hne : fine.getD v 0 ≠ fine.getD w 0) :
    distinct n coarse < distinct n fine := by
  -- the colours of all vertices but one already show every coarse colour
  have hlt : ∀ u : Fin n, (u : Nat) < coarse.size := fun u => hsize.symm ▸ u.isLt
  let f := fun u : Fin n => fine.getD u 0
  let kept := (Finset.univ.image f).erase (f v)
  have hmaps : ∀ k ∈ Finset.univ.image (fun u : Fin n => coarse.getD u 0),
      ∃ u : Fin n, coarse.getD u 0 = k ∧ f u ∈ kept := by
    intro k hk
    obtain ⟨u, -, rfl⟩ := Finset.mem_image.mp hk
    by_cases huv : f u = f v
    · refine ⟨w, ?_, Finset.mem_erase.mpr ⟨hne.symm, Finset.mem_image_of_mem f (Finset.mem_univ w)⟩⟩
      rw [← heq, h.eq_of_eq (hlt u) (hlt v) huv]
    · exact ⟨u, rfl, Finset.mem_erase.mpr ⟨huv, Finset.mem_image_of_mem f (Finset.mem_univ u)⟩⟩
  have : Nonempty (Fin n) := ⟨v⟩
  choose! g hg hkept using hmaps
  have hle : distinct n coarse ≤ kept.card := by
    refine Finset.card_le_card_of_injOn (fun k => f (g k)) hkept fun k hk k' hk' heq => ?_
    rw [← hg k hk, ← hg k' hk']
    exact h.eq_of_eq (hlt _) (hlt _) heq
  exact Nat.lt_of_le_of_lt hle (Finset.card_erase_lt_of_mem (Finset.mem_image_of_mem f (Finset.mem_univ v)))

theorem length_members (colors : Array Nat) (c : Nat) : (members colors c).length = colors.toList.count c := by
  have hlist : colors.toList = (List.range colors.size).map fun v => colors.getD v 0 :=
    List.ext_getElem (by simp) fun v hv _ => by
      have hlt : v < colors.size := by simpa using hv
      simp [hlt]
  rw [List.count_eq_countP, hlist, List.countP_map, List.countP_eq_length_filter, members]
  refine congrArg List.length (List.filter_congr fun v hv => ?_)
  simp [List.mem_range.mp hv]

/-- The target cell has a first vertex and another one. -/
theorem exists_members (h : targetCell? colors = some c) :
    ∃ v w rest, members colors c = v :: w :: rest ∧ v ≠ w := by
  obtain ⟨hc, hsize, -⟩ := Array.findIdx?_eq_some_iff_getElem.mp h
  have hlength := length_members colors c
  rw [← getD_cellSizes, Array.getElem?_eq_getElem hc, Option.getD_some] at hlength
  have hnodup : (members colors c).Nodup := List.nodup_range.filter _
  rw [decide_eq_true_eq] at hsize
  match hmembers : members colors c with
  | [] | [v] => simp [hmembers] at hlength; omega
  | v :: w :: rest => exact ⟨v, w, rest, rfl, by simp_all⟩

end Coloring

namespace ColoredGraph

open Coloring

variable {g : ColoredGraph} {σ : Equiv.Perm (Fin g.size)} {colors colors' : Array Nat}

/-- The neighbours of the image of a vertex are the images of its neighbours. -/
theorem neighbours_perm (hg : g.WellFormed) (hσ : σ ∈ g.automorphisms) (v : Fin g.size) :
    (g.neighbours (σ v)).Perm ((g.neighbours v).map fun (w, label) => ((vertexMap σ).getD w 0, label)) := by
  have himage : ∀ {w label}, (w, label) ∈ g.neighbours v →
      ∃ w' : Fin g.size, (w' : Nat) = w ∧ (vertexMap σ).getD w 0 = σ w' := by
    intro w label hw
    have hlt := hg.lt_size (hasEdge_iff.mpr hw)
    exact ⟨⟨w, hlt⟩, rfl, getD_vertexMap σ ⟨w, hlt⟩⟩
  refine (List.perm_ext_iff_of_nodup (hg.nodup _) ?_).mpr fun ⟨w', label⟩ => ?_
  · refine List.Nodup.map_on ?_ (hg.nodup v)
    rintro ⟨w, label⟩ hw ⟨w', label'⟩ hw' heq
    obtain ⟨u, rfl, hu⟩ := himage hw
    obtain ⟨u', rfl, hu'⟩ := himage hw'
    simp only [Prod.mk.injEq, hu, hu'] at heq ⊢
    exact ⟨congrArg Fin.val (σ.injective (Fin.ext heq.1)), heq.2⟩
  · simp only [List.mem_map, Prod.exists, Prod.mk.injEq]
    constructor
    · intro hmem
      have hlt := hg.lt_size (hasEdge_iff.mpr hmem)
      have hedge := (hσ v).2 (σ.symm ⟨w', hlt⟩) label
      rw [σ.apply_symm_apply, Bool.eq_iff_iff, hasEdge_iff, hasEdge_iff] at hedge
      refine ⟨_, label, hedge.mp hmem, ?_, rfl⟩
      rw [getD_vertexMap, σ.apply_symm_apply]
    · rintro ⟨w, label', hmem, heq, rfl⟩
      obtain ⟨u, rfl, hu⟩ := himage hmem
      have hedge := (hσ v).2 u label'
      rw [Bool.eq_iff_iff, hasEdge_iff, hasEdge_iff] at hedge
      rw [← heq, hu]
      exact hedge.mpr hmem

/-- The edges of one graph, between the images of their ends, are those of another one. -/
structure Renumbers {n : Nat} (σ : Equiv.Perm (Fin n)) (g g' : ColoredGraph) : Prop where
  size_eq : g.adjacency.size = n
  size_eq' : g'.adjacency.size = n
  lt : ∀ {v w label}, (w, label) ∈ g.neighbours v → w < n
  neighbours : ∀ v : Fin n, (g'.neighbours (σ v)).Perm
    ((g.neighbours v).map fun (w, label) => ((vertexMap σ).getD w 0, label))

theorem renumbers_of_mem (hg : g.WellFormed) (hσ : σ ∈ g.automorphisms) : Renumbers σ g g :=
  ⟨hg.size_eq, hg.size_eq, hg.closed.lt_size, neighbours_perm hg hσ⟩

theorem getElem?_refineOnce_keys (g : ColoredGraph) (colors : Array Nat) {v : Nat}
    (hv : v < g.adjacency.size) : ((List.range g.adjacency.size).map fun v =>
        let c := colors.getD v 0
        if (cellSizes colors).getD c 0 = 1 then [c] else g.signature colors v)[v]? =
      some (if (cellSizes colors).getD (colors.getD v 0) 0 = 1 then [colors.getD v 0]
        else g.signature colors v) := by
  rw [List.getElem?_map, List.getElem?_range hv]
  rfl

namespace Renumbers

variable {n : Nat} {σ : Equiv.Perm (Fin n)} {g g' : ColoredGraph}

theorem signature_eq (hσ : Renumbers σ g g') (h : Carried σ colors colors') (v : Fin n) :
    g'.signature colors' (σ v) = g.signature colors v := by
  unfold signature
  rw [h.color]
  refine congrArg _ ?_
  have hperm : ((g'.neighbours (σ v)).map fun (w, label) => label * colors'.size + colors'.getD w 0).Perm
      ((g.neighbours v).map fun (w, label) => label * colors.size + colors.getD w 0) := by
    refine ((hσ.neighbours v).map _).trans (List.Perm.of_eq ?_)
    rw [List.map_map]
    refine List.map_congr_left fun ⟨w, label⟩ hw => ?_
    have hlt := hσ.lt hw
    have hcolor := h.color ⟨w, hlt⟩
    have hmap := getD_vertexMap σ ⟨w, hlt⟩
    simp only at hcolor hmap
    simp only [Function.comp_apply, hmap, hcolor, h.size_eq, h.size_eq']
  exact sortBy_eq_of_perm (fun a b c hab hbc => by simp at hab hbc ⊢; omega) (fun a b => by simp; omega)
    (fun a b hab hba => by simp at hab hba; omega) hperm

theorem carried_refineOnce (hσ : Renumbers σ g g') (h : Carried σ colors colors') :
    Carried σ (g.refineOnce colors) (g'.refineOnce colors') := by
  refine .denseRanks (by simp [hσ.size_eq]) (by simp [hσ.size_eq']) fun v => ?_
  rw [getElem?_refineOnce_keys g' colors' (by rw [hσ.size_eq']; exact (σ v).isLt),
    getElem?_refineOnce_keys g colors (by rw [hσ.size_eq]; exact v.isLt), h.color, ← h.cellSizes_eq,
    hσ.signature_eq h]

theorem carried_refineWithin (hσ : Renumbers σ g g') (fuel : Nat) (h : Carried σ colors colors') :
    Carried σ (g.refineWithin fuel colors) (g'.refineWithin fuel colors') := by
  induction fuel generalizing colors colors' with
  | zero => exact h
  | succ fuel ih =>
    have hnext := hσ.carried_refineOnce h
    rw [refineWithin, refineWithin, count_eq_of_perm h.perm, count_eq_of_perm hnext.perm]
    split
    · exact hnext
    · exact ih hnext

/-- Refinement does not depend on the numbers of the vertices. -/
theorem carried_refine (hσ : Renumbers σ g g') (h : Carried σ colors colors') :
    Carried σ (g.refine colors) (g'.refine colors') := by
  rw [refine, refine, h.size_eq, h.size_eq']
  refine hσ.carried_refineWithin _ (.denseRanks (by simp [h.size_eq]) (by simp [h.size_eq']) fun v => ?_)
  have hkey : ∀ {colors : Array Nat}, colors.size = n → ∀ v : Fin n,
      (colors.toList.map fun c => [c])[(v : Nat)]? = some [colors.getD v 0] := by
    intro colors hsize v
    simp [hsize]
  rw [hkey h.size_eq', hkey h.size_eq, h.color]

end Renumbers

/-- An automorphism carries refinements along. -/
theorem carried_refine (hg : g.WellFormed) (hσ : σ ∈ g.automorphisms)
    (h : Carried σ colors colors') : Carried σ (g.refine colors) (g.refine colors') :=
  (renumbers_of_mem hg hσ).carried_refine h

theorem finer_refineOnce (hg : g.Closed) (hsize : colors.size = g.size) :
    Finer colors (g.refineOnce colors) := by
  refine .denseRanks (by simp [hg.size_eq, hsize]) fun v hv => ?_
  rw [getElem?_refineOnce_keys g colors (by rw [hg.size_eq]; omega)]
  by_cases halone : (cellSizes colors).getD (colors.getD v 0) 0 = 1
  · exact ⟨[], by rw [if_pos halone]⟩
  · exact ⟨_, by rw [if_neg halone, signature]⟩

theorem finer_refineWithin (hg : g.Closed) (fuel : Nat) (hsize : colors.size = g.size) :
    Finer colors (g.refineWithin fuel colors) := by
  induction fuel generalizing colors with
  | zero => exact .refl colors
  | succ fuel ih =>
    have hnext := finer_refineOnce hg hsize
    rw [refineWithin]
    split
    · exact hnext
    · exact hnext.trans (ih (hnext.size_eq.trans hsize))

/-- Refinement keeps the order of the colours. -/
theorem finer_refine (hg : g.Closed) (hsize : colors.size = g.size) : Finer colors (g.refine colors) := by
  have hstart : Finer colors (denseRanks (colors.toList.map fun c => [c])) :=
    .denseRanks (by simp) fun v hv => ⟨[], by simp [hv]⟩
  exact hstart.trans (finer_refineWithin hg _ (hstart.size_eq.trans hsize))

end ColoredGraph

end RankedPlans
