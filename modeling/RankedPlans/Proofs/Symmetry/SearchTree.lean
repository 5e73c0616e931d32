import RankedPlans.Proofs.Symmetry.Automorphism
import RankedPlans.Proofs.Symmetry.Coloring

/-! The search below a level of the first path. An automorphism that it finds carries the end of that path
to the end of another one, and it finds one wherever there is one that moves a vertex, unless the budget is
used up. -/

namespace RankedPlans

/-- What the search may do to its effort. -/
structure SearchEffort.Grows (budget : Nat) (before after : SearchEffort) : Prop where
  visited : before.visited ≤ budget → after.visited ≤ budget
  exhausted : before.exhausted = true → after.exhausted = true

namespace SearchEffort.Grows

variable {budget : Nat} {before between after : SearchEffort}

theorem refl (effort : SearchEffort) : effort.Grows budget effort :=
  ⟨id, id⟩

theorem trans (h : before.Grows budget between) (h' : between.Grows budget after) :
    before.Grows budget after :=
  ⟨h'.visited ∘ h.visited, h'.exhausted ∘ h.exhausted⟩

end SearchEffort.Grows

namespace ColoredGraph

open Coloring

variable {g : ColoredGraph} {σ : Equiv.Perm (Fin g.size)} {colors colors' leaf image : Array Nat}
  {path : FirstPath} {levels : List PathLevel} {budget fuel depth cell base : Nat} {effort : SearchEffort}

/-- The levels from a colouring down to one without a shared colour. -/
inductive Descent (g : ColoredGraph) : Array Nat → List PathLevel → Array Nat → Prop
  | leaf {colors : Array Nat} (hnone : targetCell? colors = none) : g.Descent colors [] colors
  | level {colors leaf : Array Nat} {cell base : Nat} {levels : List PathLevel}
      (hcell : targetCell? colors = some cell) (hbase : base ∈ members colors cell)
      (hbelow : g.Descent (g.refine (individualize colors base)) levels leaf) :
      g.Descent colors (⟨colors, cell, base⟩ :: levels) leaf

theorem size_refine (hg : g.WellFormed) (hsize : colors.size = g.size) :
    (g.refine colors).size = g.size :=
  (finer_refine hg.closed hsize).size_eq.trans hsize

/-- Setting the first vertex of the target cell apart adds a colour. -/
theorem distinct_lt_setApart (hg : g.WellFormed) (hsize : colors.size = g.size)
    (hcell : targetCell? colors = some cell) :
    (members colors cell).headD 0 ∈ members colors cell ∧ distinct g.size colors <
      distinct g.size (g.refine (individualize colors ((members colors cell).headD 0))) := by
  obtain ⟨v, w, rest, hmembers, hne⟩ := exists_members hcell
  obtain ⟨hv, hvc⟩ := mem_members.mp (hmembers ▸ List.mem_cons_self : v ∈ members colors cell)
  obtain ⟨hw, hwc⟩ := mem_members.mp
    (hmembers ▸ List.mem_cons_of_mem _ List.mem_cons_self : w ∈ members colors cell)
  rw [hmembers, List.headD_cons]
  refine ⟨List.mem_cons_self, ?_⟩
  have hfiner := finer_individualize colors v
  have hrefine := finer_refine hg.closed (hfiner.size_eq.trans hsize)
  have hlt := hrefine.lt (by rwa [hfiner.size_eq]) (by rwa [hfiner.size_eq])
    (individualize_lt hv hw hne.symm (hwc.trans hvc.symm))
  exact (hfiner.trans hrefine).distinct_lt hsize ⟨v, hsize ▸ hv⟩ ⟨w, hsize ▸ hw⟩
    (hvc.trans hwc.symm) (Nat.ne_of_lt hlt)

theorem firstPathWithin_descent (hg : g.WellFormed) (hsize : colors.size = g.size)
    (hfuel : g.size ≤ distinct g.size colors + fuel) :
    g.Descent colors (g.firstPathWithin fuel colors).levels (g.firstPathWithin fuel colors).leaf := by
  induction fuel generalizing colors with
  | zero =>
    refine .leaf ?_
    -- another colour would be one too many
    cases hcell : targetCell? colors with
    | none => rfl
    | some cell =>
      have hlt := (distinct_lt_setApart hg hsize hcell).2
      have hle := distinct_le g.size (g.refine (individualize colors ((members colors cell).headD 0)))
      omega
  | succ fuel ih =>
    unfold firstPathWithin
    split
    · exact .leaf ‹_›
    · rename_i cell hcell
      obtain ⟨hmem, hlt⟩ := distinct_lt_setApart hg hsize hcell
      exact .level hcell hmem (ih (size_refine hg (by rwa [size_individualize])) (by omega))

theorem firstPath_descent (hg : g.WellFormed) :
    g.Descent (g.refine g.colors) g.firstPath.levels g.firstPath.leaf :=
  firstPathWithin_descent hg (size_refine hg rfl) (by omega)

theorem length_firstPathWithin (fuel : Nat) (colors : Array Nat) :
    (g.firstPathWithin fuel colors).levels.length ≤ fuel := by
  induction fuel generalizing colors with
  | zero => exact Nat.le_refl 0
  | succ fuel ih =>
    unfold firstPathWithin
    split
    · exact Nat.zero_le _
    · exact Nat.succ_le_succ (ih _)

section FirstImage

variable {α : Type} {attempt : Nat → SearchEffort → Option α × SearchEffort}

theorem firstImage_grows
    (hattempt : ∀ u (effort : SearchEffort), effort.Grows budget (attempt u effort).2)
    (vs : List Nat) (effort : SearchEffort) : effort.Grows budget (firstImage attempt vs effort).2 := by
  induction vs generalizing effort with
  | nil => exact .refl effort
  | cons u vs ih =>
    have hu := hattempt u effort
    rw [firstImage]
    simp only
    split
    · exact hu
    · exact hu.trans (ih _)

/-- One vertex that succeeds is enough. -/
theorem firstImage_isSome {vs : List Nat} {u : Nat} (hu : u ∈ vs)
    (hattempt : ∀ effort, (attempt u effort).2.exhausted = false → (attempt u effort).1.isSome = true)
    (hleft : (firstImage attempt vs effort).2.exhausted = false) :
    (firstImage attempt vs effort).1.isSome = true := by
  induction vs generalizing effort with
  | nil => cases hu
  | cons v vs ih =>
    rw [firstImage] at hleft ⊢
    simp only at hleft ⊢
    split at hleft
    · rename_i hstop
      rw [if_pos hstop]
      rw [hleft, Bool.or_false] at hstop
      exact hstop
    · rename_i hgo
      rw [if_neg hgo]
      obtain ⟨hnone, hexhausted⟩ := not_or.mp (fun h => hgo (Bool.or_eq_true_iff.mpr h))
      rcases List.mem_cons.mp hu with rfl | hu
      · exact absurd (hattempt effort (Bool.eq_false_iff.mpr hexhausted)) hnone
      · exact ih hu hleft

end FirstImage

theorem descend_grows (g : ColoredGraph) (path : FirstPath) (budget fuel : Nat) (colors : Array Nat)
    (depth : Nat) (effort : SearchEffort) :
    effort.Grows budget (g.descend path budget fuel colors depth effort).2 := by
  induction fuel generalizing colors depth effort with
  | zero => exact .refl effort
  | succ fuel ih =>
    unfold descend
    split
    · exact ⟨id, fun _ => rfl⟩
    · have hvisit : effort.Grows budget { effort with visited := effort.visited + 1 } :=
        ⟨fun _ => by simp only; omega, id⟩
      simp only
      split
      · exact hvisit
      · split
        · exact hvisit
        · exact hvisit.trans (firstImage_grows (fun u effort => ih _ _ effort) _ _)

theorem Leads.finer (hg : g.WellFormed) (h : g.Leads colors leaf) (hsize : colors.size = g.size) :
    Finer colors leaf := by
  induction h with
  | refine colors => exact finer_refine hg.closed hsize
  | setApart u _ ih =>
    have hrefined := finer_refine hg.closed hsize
    have hbelow := ih (by rw [size_individualize, hrefined.size_eq, hsize])
    exact hrefined.trans ((finer_individualize _ u).trans hbelow)

/-- What is found moves a vertex and carries the end of the first path along. -/
theorem descend_carried (hg : g.WellFormed)
    (hpath : ∀ level ∈ path.levels, targetCell? level.colors ≠ none) (hsize : colors.size = g.size)
    (h : (g.descend path budget fuel colors depth effort).1 = some image) :
    ∃ σ ∈ g.automorphisms, σ ≠ 1 ∧ vertexMap σ = image ∧
      ∃ leaf, Finer colors leaf ∧ Carried σ path.leaf leaf := by
  obtain ⟨leaf, hleads, hfound, hperm, hnd⟩ := exists_leaf_of_descend hpath h
  obtain ⟨σ, hσ, himage⟩ := (leafPermutation?_eq_some hleads.inRange hperm hnd hfound).exists_mem hg
  obtain ⟨heq, hmoves, -⟩ := leafPermutation?_eq_some_iff.mp hfound
  have hfiner := hleads.finer hg hsize
  have hleaf : leaf.size = g.size := hfiner.size_eq.trans hsize
  have hreference : path.leaf.size = g.size := by simpa [hleaf] using hperm.length_eq
  refine ⟨σ, hσ, ?_, himage, leaf, hfiner, hreference, hleaf, fun v => ?_⟩
  · rintro rfl
    exact hmoves (by rw [← himage, vertexMap_one, Array.size_range])
  · have hcolor := getElem?_leafImage hleads.inRange hperm hnd (hreference.symm ▸ v.isLt : (v : Nat) < path.leaf.size)
    rw [heq, ← himage, getD_vertexMap] at hcolor
    rw [Array.getD_eq_getD_getElem?, hcolor, Array.getD_eq_getD_getElem?]

/-- Colourings that are carried to each other and use no colour twice show the permutation. -/
theorem leafImage_eq {reference leaf : Array Nat} (h : Carried σ reference leaf)
    (hrange : InRange leaf) (hnd : leaf.toList.Nodup) : leafImage reference leaf = vertexMap σ := by
  apply Array.ext
  · rw [leafImage, Array.size_map, size_vertexMap, h.size_eq]
  · intro v hv hv'
    rw [size_vertexMap] at hv'
    have hcolor := getElem?_leafImage hrange h.perm hnd (h.size_eq.symm ▸ hv' : v < reference.size)
    rw [← h.getElem?_eq ⟨v, hv'⟩, ← Array.getElem?_toList, ← Array.getElem?_toList] at hcolor
    have hlt : (σ ⟨v, hv'⟩ : Nat) < leaf.toList.length := by
      rw [Array.length_toList, h.size_eq']
      exact (σ ⟨v, hv'⟩).isLt
    have heq := (List.getElem?_inj hlt hnd).mp hcolor.symm
    rw [Array.getD_eq_getD_getElem?, Array.getElem?_eq_getElem hv, Option.getD_some] at heq
    rw [← heq]
    simp [vertexMap]

theorem Descent.reference_eq (h : g.Descent colors levels path.leaf)
    (hlevels : path.levels.drop depth = levels) :
    (path.levels[depth]?.map PathLevel.colors).getD path.leaf = colors := by
  rw [← List.head?_drop, hlevels]
  cases h with
  | leaf => rfl
  | level => rfl

/-- An automorphism that carries the colours of a level to those of a node brings the search from that node
to an end like that of the first path. -/
theorem descend_isSome (hg : g.WellFormed) {reference : Array Nat}
    (hdescent : g.Descent reference levels path.leaf) (hlevels : path.levels.drop depth = levels)
    (hσ : σ ∈ g.automorphisms) (hne : σ ≠ 1) (hcarried : Carried σ reference (g.refine colors))
    (hfuel : levels.length < fuel)
    (hleft : (g.descend path budget fuel colors depth effort).2.exhausted = false) :
    (g.descend path budget fuel colors depth effort).1.isSome = true := by
  induction fuel generalizing reference levels colors depth effort with
  | zero => omega
  | succ fuel ih =>
    have href := hdescent.reference_eq hlevels
    unfold descend at hleft ⊢
    split at hleft
    · cases hleft
    · rename_i hbudget
      rw [if_neg hbudget]
      simp only [href, hcarried.cellSizes_eq, ne_eq, not_true_eq_false, if_false] at hleft ⊢
      cases hdescent with
      | leaf hnone =>
        have hnone' := hcarried.targetCell?_eq ▸ hnone
        simp only [hnone']
        have himage := leafImage_eq hcarried (g.inRange_refine colors)
          (targetCell?_eq_none_iff.mp hnone')
        rw [leafPermutation?_eq_some_iff.mpr ⟨himage, ?_, isAutomorphism_vertexMap hg hσ⟩]
        · rfl
        · rw [size_vertexMap, ← vertexMap_one]
          exact fun heq => hne (vertexMap_injective heq)
      | level hcell hbase hbelow =>
        rename_i cell base levels
        have hlt := (mem_members.mp hbase).1
        rw [hcarried.size_eq] at hlt
        have hnext := carried_refine hg hσ (carried_individualize hcarried ⟨base, hlt⟩)
        simp only [hcarried.targetCell?_eq ▸ hcell] at hleft ⊢
        refine firstImage_isSome ((hcarried.mem_members_iff ⟨base, hlt⟩).mpr hbase)
          (fun effort => ih hbelow ?_ hnext ?_) hleft
        · rw [← List.drop_drop, hlevels]
          rfl
        · rw [List.length_cons] at hfuel
          omega

end ColoredGraph

end RankedPlans
