import RankedPlans.Proofs.Symmetry.Coloring

/-! Refinement ends with the coarsest colouring below the given one whose colours say all about the
neighbours of a vertex. As colourings become finer from round to round and leave out no colour, a round that
adds no colour changes nothing, and that is what makes the last one equitable. Nothing depends on how the
vertices are numbered. -/

namespace RankedPlans

namespace Coloring

variable {n : Nat} {colors coarse fine : Array Nat}

/-- No colour below one in use is left out. -/
def Dense (colors : Array Nat) : Prop :=
  ∀ v < colors.size, ∀ c ≤ colors.getD v 0, ∃ w < colors.size, colors.getD w 0 = c

/-- Vertices of one colour have one colour in the coarser colouring too. -/
def Refines (fine coarse : Array Nat) : Prop :=
  ∀ v < coarse.size, ∀ w < coarse.size, fine.getD v 0 = fine.getD w 0 →
    coarse.getD v 0 = coarse.getD w 0

theorem dense_denseRanks (keys : List (List Nat)) : Dense (denseRanks keys) := by
  intro v hv c hc
  rw [size_denseRanks] at hv ⊢
  exact denseRanks_dense hv hc

theorem getD_mem {v : Nat} (hv : v < colors.size) : colors.getD v 0 ∈ colors.toList := by
  simp [hv]

theorem exists_of_mem {c : Nat} (hc : c ∈ colors.toList) : ∃ v < colors.size, colors.getD v 0 = c := by
  obtain ⟨v, hv, rfl⟩ := List.mem_iff_getElem.mp hc
  have hlt : v < colors.size := by simpa using hv
  exact ⟨v, hlt, by simp [hlt]⟩

theorem exists_le_of_lt_count {c : Nat} (hc : c < count colors) : ∃ d ∈ colors.toList, c ≤ d := by
  have fold : ∀ (l : List Nat) (m : Nat), m ≤ c → c < l.foldl (fun n c => max n (c + 1)) m →
      ∃ d ∈ l, c ≤ d := by
    intro l
    induction l with
    | nil =>
      intro m hm hlt
      rw [List.foldl_nil] at hlt
      omega
    | cons d l ih =>
      intro m hm hlt
      by_cases hd : c ≤ d
      · exact ⟨d, List.mem_cons_self, hd⟩
      · obtain ⟨e, he, hle⟩ := ih (max m (d + 1)) (by omega) hlt
        exact ⟨e, List.mem_cons_of_mem _ he, hle⟩
  rw [count, ← Array.foldl_toList] at hc
  exact fold _ 0 (Nat.zero_le _) hc

/-- Where no colour is left out, the greatest one tells how many there are. -/
theorem Dense.count_eq (h : Dense colors) (hsize : colors.size = n) : count colors = distinct n colors := by
  have himage : (Finset.univ.image fun v : Fin n => colors.getD v 0) = Finset.range (count colors) := by
    ext c
    simp only [Finset.mem_image, Finset.mem_univ, true_and, Finset.mem_range]
    constructor
    · rintro ⟨v, rfl⟩
      exact lt_count (getD_mem (hsize ▸ v.isLt))
    · intro hc
      obtain ⟨d, hd, hle⟩ := exists_le_of_lt_count hc
      obtain ⟨v, hv, rfl⟩ := exists_of_mem hd
      obtain ⟨w, hw, rfl⟩ := h v hv c hle
      exact ⟨⟨w, hsize ▸ hw⟩, rfl⟩
  rw [distinct, himage, Finset.card_range]

/-- A finer colouring has more colours or is the same colouring. -/
theorem Finer.eq_or_count_lt (h : Finer coarse fine) (hcoarse : Dense coarse) (hfine : Dense fine) :
    fine = coarse ∨ count coarse < count fine := by
  have hsize := h.size_eq
  by_cases hsame : Refines coarse fine
  · left
    have hle : ∀ v w : Fin coarse.size, fine.getD v 0 ≤ fine.getD w 0 ↔
        coarse.getD v 0 ≤ coarse.getD w 0 := by
      refine fun v w => ⟨h.le_of_le v.isLt w.isLt, fun hle => ?_⟩
      rcases Nat.lt_or_eq_of_le hle with hlt | heq
      · exact Nat.le_of_lt (h.lt v.isLt w.isLt hlt)
      · exact Nat.le_of_eq (hsame v (by omega) w (by omega) heq)
    have hall := eq_of_dense hle
      (fun v c hc => by
        obtain ⟨w, hw, hwc⟩ := hfine v (by omega) c hc
        exact ⟨⟨w, by omega⟩, hwc⟩)
      (fun v c hc => by
        obtain ⟨w, hw, hwc⟩ := hcoarse v v.isLt c hc
        exact ⟨⟨w, hw⟩, hwc⟩)
    rw [← Array.toList_inj, toList_eq_ofFn hsize, toList_eq_ofFn rfl]
    exact congrArg List.ofFn (funext hall)
  · right
    simp only [Refines, not_forall] at hsame
    obtain ⟨v, hv, w, hw, heq, hne⟩ := hsame
    rw [hcoarse.count_eq rfl, hfine.count_eq hsize]
    exact h.distinct_lt rfl ⟨v, by omega⟩ ⟨w, by omega⟩ heq hne

end Coloring

namespace ColoredGraph

open Coloring

variable {g : ColoredGraph} {colors fine : Array Nat} {v w : Nat}

/-- The labels of the edges at a vertex, each with the colour at its other end. -/
def around (g : ColoredGraph) (colors : Array Nat) (v : Nat) : List (Nat × Nat) :=
  (g.neighbours v).map fun (w, label) => (label, colors.getD w 0)

/-- Vertices of one colour have equally many edges of each label to vertices of each colour. -/
def Equitable (g : ColoredGraph) (colors : Array Nat) : Prop :=
  ∀ v < g.size, ∀ w < g.size, colors.getD v 0 = colors.getD w 0 →
    (g.around colors v).Perm (g.around colors w)

theorem signature_eq_cons (g : ColoredGraph) (colors : Array Nat) (v : Nat) :
    g.signature colors v = colors.getD v 0 ::
      sortBy (fun a b => a ≤ b) ((g.around colors v).map fun (label, c) => label * colors.size + c) := by
  rw [signature, around, List.map_map]
  rfl

/-- A number stands for one label and one colour. -/
theorem decode_around (hg : g.Closed) (hsize : colors.size = g.size) (hrange : InRange colors) (v : Nat) :
    ((g.around colors v).map fun (label, c) => label * colors.size + c).map
      (fun k => (k / colors.size, k % colors.size)) = g.around colors v := by
  rw [List.map_map]
  refine (List.map_congr_left fun p hp => ?_).trans (List.map_id _)
  obtain ⟨⟨w, label⟩, hw, rfl⟩ := List.mem_map.mp hp
  have hlt : w < colors.size := hsize ▸ hg.lt_size hw
  have hc : colors.getD w 0 < colors.size := hrange _ (getD_mem hlt)
  simp only [Function.comp_apply, Nat.mul_comm label, Nat.mul_add_mod, Nat.mod_eq_of_lt hc,
    Nat.mul_add_div (Nat.zero_lt_of_lt hc), Nat.div_eq_of_lt hc, Nat.add_zero, id]

/-- Two vertices have the same signature if they have the same colour and the same colours around them. -/
theorem signature_eq_iff (hg : g.Closed) (hsize : colors.size = g.size) (hrange : InRange colors) :
    g.signature colors v = g.signature colors w ↔ colors.getD v 0 = colors.getD w 0 ∧
      (g.around colors v).Perm (g.around colors w) := by
  rw [signature_eq_cons, signature_eq_cons, List.cons.injEq]
  refine and_congr_right fun _ => ⟨fun heq => ?_, fun hperm => ?_⟩
  · have hperm := ((sortBy_perm _ _).symm.trans (.of_eq heq)).trans (sortBy_perm _ _)
    rw [← decode_around hg hsize hrange v, ← decode_around hg hsize hrange w]
    exact hperm.map _
  · exact sortBy_eq_of_perm (fun a b c hab hbc => by simp at hab hbc ⊢; omega) (fun a b => by simp; omega)
      (fun a b hab hba => by simp at hab hba; omega) (hperm.map _)

/-- A vertex that is alone with its colour. -/
theorem eq_of_cellSizes_eq_one (hone : (cellSizes colors).getD (colors.getD v 0) 0 = 1)
    (hv : v < colors.size) (hw : w < colors.size) (heq : colors.getD v 0 = colors.getD w 0) : v = w := by
  rw [Array.getD_eq_getD_getElem?, getD_cellSizes, ← length_members] at hone
  obtain ⟨u, hu⟩ := List.length_eq_one_iff.mp hone
  have hv' : v ∈ members colors (colors.getD v 0) := mem_members.mpr ⟨hv, rfl⟩
  have hw' : w ∈ members colors (colors.getD v 0) := mem_members.mpr ⟨hw, heq.symm⟩
  rw [hu, List.mem_singleton] at hv' hw'
  rw [hv', hw']

/-- A round keeps two vertices together exactly if they had one colour and the same colours around them. -/
theorem getD_refineOnce_eq_iff (hg : g.Closed) (hsize : colors.size = g.size) (hrange : InRange colors)
    (hv : v < g.size) (hw : w < g.size) :
    (g.refineOnce colors).getD v 0 = (g.refineOnce colors).getD w 0 ↔
      colors.getD v 0 = colors.getD w 0 ∧ (g.around colors v).Perm (g.around colors w) := by
  rw [refineOnce, denseRanks_eq_iff (getElem?_refineOnce_keys g colors (by rw [hg.size_eq]; exact hv))
    (getElem?_refineOnce_keys g colors (by rw [hg.size_eq]; exact hw))]
  constructor
  · intro hkey
    have hcolor : colors.getD v 0 = colors.getD w 0 := by
      split at hkey <;> split at hkey <;> exact (List.cons.inj hkey).1
    by_cases hone : (cellSizes colors).getD (colors.getD v 0) 0 = 1
    · obtain rfl := eq_of_cellSizes_eq_one hone (hsize ▸ hv) (hsize ▸ hw) hcolor
      exact ⟨rfl, .refl _⟩
    · rw [← hcolor, if_neg hone, if_neg hone] at hkey
      exact (signature_eq_iff hg hsize hrange).mp hkey
  · rintro ⟨hcolor, hperm⟩
    rw [← hcolor, (signature_eq_iff hg hsize hrange).mpr ⟨hcolor, hperm⟩]

theorem equitable_of_refineOnce_eq (hg : g.Closed) (hsize : colors.size = g.size) (hrange : InRange colors)
    (hfix : g.refineOnce colors = colors) : g.Equitable colors := by
  intro v hv w hw heq
  rw [← hfix] at heq
  exact ((getD_refineOnce_eq_iff hg hsize hrange hv hw).mp heq).2

/-- Where the colours around a vertex depend on its finer colour, so do the coarser colours around it. -/
theorem Equitable.perm_around (h : g.Equitable fine) (hg : g.Closed) (hsize : colors.size = g.size)
    (hfine : Refines fine colors) (hv : v < g.size) (hw : w < g.size)
    (heq : fine.getD v 0 = fine.getD w 0) : (g.around colors v).Perm (g.around colors w) := by
  have hcoarsen : ∃ f : Nat → Nat, ∀ u < g.size, f (fine.getD u 0) = colors.getD u 0 := by
    classical
    refine ⟨fun c => if hc : ∃ u < g.size, fine.getD u 0 = c then colors.getD hc.choose 0 else 0,
      fun u hu => ?_⟩
    have hc : ∃ x < g.size, fine.getD x 0 = fine.getD u 0 := ⟨u, hu, rfl⟩
    rw [← hsize] at hu
    exact (dif_pos hc).trans (hfine _ (hsize.symm ▸ hc.choose_spec.1) _ hu hc.choose_spec.2)
  obtain ⟨f, hf⟩ := hcoarsen
  have hmap : ∀ u, g.around colors u = (g.around fine u).map fun (label, c) => (label, f c) := by
    intro u
    rw [around, around, List.map_map]
    exact List.map_congr_left fun p hp => congrArg (Prod.mk p.2) (hf p.1 (hg.lt_size hp)).symm
  rw [hmap, hmap]
  exact (h v hv w hw heq).map _

/-- A round does not go beyond an equitable colouring that is finer already. -/
theorem Equitable.refines_refineOnce (h : g.Equitable fine) (hg : g.Closed) (hsize : colors.size = g.size)
    (hrange : InRange colors) (hfine : Refines fine colors) : Refines fine (g.refineOnce colors) := by
  have hround := (finer_refineOnce hg hsize).size_eq.trans hsize
  intro v hv w hw heq
  rw [hround] at hv hw
  exact (getD_refineOnce_eq_iff hg hsize hrange hv hw).mpr
    ⟨hfine v (hsize ▸ hv) w (hsize ▸ hw) heq, h.perm_around hg hsize hfine hv hw heq⟩

theorem Equitable.refines_refineWithin (h : g.Equitable fine) (hg : g.Closed) (fuel : Nat)
    (hsize : colors.size = g.size) (hrange : InRange colors) (hfine : Refines fine colors) :
    Refines fine (g.refineWithin fuel colors) := by
  induction fuel generalizing colors with
  | zero => exact hfine
  | succ fuel ih =>
    have hnext := h.refines_refineOnce hg hsize hrange hfine
    rw [refineWithin]
    split
    · exact hnext
    · exact ih ((finer_refineOnce hg hsize).size_eq.trans hsize) (inRange_denseRanks _) hnext

/-- As long as colours are added there is fuel left, and the last round has changed nothing. -/
theorem refineWithin_settled (hg : g.Closed) (fuel : Nat) (hsize : colors.size = g.size)
    (hdense : Dense colors) (hfuel : g.size < fuel + count colors) :
    g.refineOnce (g.refineWithin fuel colors) = g.refineWithin fuel colors ∧
      Dense (g.refineWithin fuel colors) ∧
      ∀ more, g.refineWithin (fuel + more) colors = g.refineWithin fuel colors := by
  induction fuel generalizing colors with
  | zero =>
    have := distinct_le g.size colors
    rw [hdense.count_eq hsize] at hfuel
    omega
  | succ fuel ih =>
    have hfiner := finer_refineOnce hg hsize
    have hnext : Dense (g.refineOnce colors) := dense_denseRanks _
    simp only [refineWithin, Nat.add_right_comm fuel 1]
    rcases hfiner.eq_or_count_lt hdense hnext with heq | hlt
    · simp only [heq, if_true]
      exact ⟨trivial, hdense, fun _ => trivial⟩
    · simp only [if_neg (Nat.ne_of_gt hlt)]
      exact ih (hfiner.size_eq.trans hsize) hnext (by omega)

end ColoredGraph

section Renumber

variable {n : Nat}

/-- The same colouring under other numbers of the vertices. -/
def Coloring.renumber (σ : Equiv.Perm (Fin n)) (colors : Array Nat) : Array Nat :=
  Array.ofFn fun v : Fin n => colors.getD (σ⁻¹ v : Fin n) 0

/-- The same graph under other numbers of its vertices. -/
def ColoredGraph.renumber (g : ColoredGraph) (σ : Equiv.Perm (Fin g.size)) : ColoredGraph where
  colors := Coloring.renumber σ g.colors
  adjacency := Array.ofFn fun v : Fin g.size => sortBy neighbourLe
    ((g.neighbours (σ⁻¹ v : Fin g.size)).map fun (w, label) => ((vertexMap σ).getD w 0, label))

theorem Coloring.carried_renumber (σ : Equiv.Perm (Fin n)) {colors : Array Nat} (hsize : colors.size = n) :
    Carried σ colors (renumber σ colors) := by
  refine ⟨hsize, Array.size_ofFn, fun v => ?_⟩
  simp [renumber]

theorem ColoredGraph.renumbers_renumber {g : ColoredGraph} (hg : g.Closed) (σ : Equiv.Perm (Fin g.size)) :
    Renumbers σ g (g.renumber σ) := by
  refine ⟨hg.size_eq, Array.size_ofFn, hg.lt_size, fun v => ?_⟩
  have hlist : (g.renumber σ).neighbours (σ v) = sortBy neighbourLe
      ((g.neighbours v).map fun (w, label) => ((vertexMap σ).getD w 0, label)) := by
    simp [neighbours, renumber]
  rw [hlist]
  exact sortBy_perm _ _

end Renumber

namespace ColoredGraph

open Coloring

/-- Refinement comes to an end with the coarsest equitable colouring that is finer than the given one, leaves
out no colour, keeps the order of the colours that were given, and gives the vertices the same colours
whatever their numbers. -/
theorem refine_coarsest {g : ColoredGraph} (hg : g.Closed) {colors : Array Nat}
    (hsize : colors.size = g.size) :
    (∀ rounds, g.size < rounds →
      g.refineWithin rounds (denseRanks (colors.toList.map fun c => [c])) = g.refine colors) ∧
    (g.refine colors).size = g.size ∧ Dense (g.refine colors) ∧
    (∀ v < g.size, ∀ w < g.size,
      ((g.refine colors).getD v 0 = (g.refine colors).getD w 0 → colors.getD v 0 = colors.getD w 0) ∧
      (colors.getD v 0 < colors.getD w 0 → (g.refine colors).getD v 0 < (g.refine colors).getD w 0)) ∧
    g.Equitable (g.refine colors) ∧
    (∀ fine : Array Nat, Refines fine colors → g.Equitable fine → Refines fine (g.refine colors)) ∧
    ∀ σ : Equiv.Perm (Fin g.size),
      (g.renumber σ).refine (Coloring.renumber σ colors) = Coloring.renumber σ (g.refine colors) := by
  have hstart : (denseRanks (colors.toList.map fun c => [c])).size = g.size := by simp [hsize]
  have hfiner := finer_refine hg hsize
  have hrefined := hfiner.size_eq.trans hsize
  obtain ⟨hfix, hdense, hmore⟩ := refineWithin_settled hg (colors.size + 1) hstart
    (dense_denseRanks _) (by omega)
  refine ⟨fun rounds hrounds => ?_, hrefined, hdense, fun v hv w hw => ?_,
    equitable_of_refineOnce_eq hg hrefined (g.inRange_refine colors) hfix,
    fun fine hfine heq => ?_, fun σ => ?_⟩
  · obtain ⟨more, rfl⟩ := Nat.exists_eq_add_of_le (show colors.size + 1 ≤ rounds by omega)
    exact hmore more
  · rw [← hsize] at hv hw
    exact ⟨hfiner.eq_of_eq hv hw, hfiner.lt hv hw⟩
  · refine heq.refines_refineWithin hg _ hstart (inRange_denseRanks _) fun v hv w hw hvw => ?_
    have hkey : ∀ u < colors.size, (colors.toList.map fun c => [c])[u]? = some [colors.getD u 0] :=
      fun u hu => by simp [hu]
    rw [hstart, ← hsize] at hv hw
    rw [denseRanks_eq_iff (hkey v hv) (hkey w hw), hfine v hv w hw hvw]
  · exact ((renumbers_renumber hg σ).carried_refine (carried_renumber σ hsize)).unique
      (carried_renumber σ hrefined)

/-- Four vertices in a row, and one that is linked to none. -/
def row : ColoredGraph :=
  .ofEdges #[0, 0, 0, 0, 0] [(0, 1, 0), (1, 2, 0), (2, 3, 0)]

theorem refine_coarsest_row : row.Closed ∧ (#[7, 7, 7, 7, 4] : Array Nat).size = row.size ∧
    row.refine #[7, 7, 7, 7, 4] = #[1, 2, 2, 1, 0] ∧ row.Equitable (row.refine #[7, 7, 7, 7, 4]) := by
  have hg : row.Closed := (wellFormed_ofEdges (by decide)).closed
  exact ⟨hg, rfl, by decide +kernel,
    (refine_coarsest hg (show (#[7, 7, 7, 7, 4] : Array Nat).size = row.size from rfl)).2.2.2.2.1⟩

end ColoredGraph

end RankedPlans
