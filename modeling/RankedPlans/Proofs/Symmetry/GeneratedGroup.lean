import Mathlib.GroupTheory.GroupAction.Defs
import Mathlib.Algebra.Group.Subgroup.Lattice
import Mathlib.Algebra.Group.Action.End
import Mathlib.Algebra.Group.Subgroup.Actions
import Mathlib.SetTheory.Cardinal.NatCard
import RankedPlans.Proofs.Symmetry.SearchTree
import RankedPlans.Proofs.Symmetry.UnionFind

/-! The generators that are found are few, and they generate every automorphism of the graph unless the
budget was used up. The automorphisms that keep the colours of a level are the stabilizers of the vertices
set apart above it; the levels are searched from the smallest of these groups to the whole one. -/

namespace RankedPlans

section Generated

variable {n : Nat} {images : List (Array Nat)}

/-- The group that vertex maps generate. -/
def generatedGroup (n : Nat) (images : List (Array Nat)) : Subgroup (Equiv.Perm (Fin n)) :=
  Subgroup.closure {σ | vertexMap σ ∈ images}

theorem mem_generatedGroup {σ : Equiv.Perm (Fin n)} (h : vertexMap σ ∈ images) :
    σ ∈ generatedGroup n images :=
  Subgroup.subset_closure h

theorem generatedGroup_mono {images' : List (Array Nat)} (h : images ⊆ images') :
    generatedGroup n images ≤ generatedGroup n images' :=
  Subgroup.closure_mono fun _ hσ => h hσ

/-- Some of the maps sends `x` to `y`. -/
def Sends (images : List (Array Nat)) (x y : Nat) : Prop :=
  ∃ image ∈ images, image[x]? = some y

/-- Merging vertices with their images joins the orbits of the generated group. -/
theorem eqvGen_sends_iff (hperm : ∀ image ∈ images, ∃ σ : Equiv.Perm (Fin n), vertexMap σ = image)
    {x y : Fin n} : Relation.EqvGen (Sends images) x y ↔ ∃ τ ∈ generatedGroup n images, τ x = y := by
  constructor
  · intro h
    -- numbers that are no vertices are only in relation with themselves
    have hmoved : ∀ {x y : Nat}, Relation.EqvGen (Sends images) x y → x = y ∨
        ∃ (hx : x < n), ∃ τ ∈ generatedGroup n images, (τ ⟨x, hx⟩ : Nat) = y := by
      intro x y h
      induction h with
      | rel x y h =>
        obtain ⟨image, himage, hxy⟩ := h
        obtain ⟨σ, rfl⟩ := hperm image himage
        have hx : x < n := by simpa using (Array.getElem?_eq_some_iff.mp hxy).1
        refine .inr ⟨hx, σ, mem_generatedGroup himage, ?_⟩
        have hget := getD_vertexMap σ ⟨x, hx⟩
        rwa [Array.getD_eq_getD_getElem?, hxy, Option.getD_some, eq_comm] at hget
      | refl x => exact .inl rfl
      | symm x y _ ih =>
        rcases ih with rfl | ⟨hx, τ, hτ, rfl⟩
        · exact .inl rfl
        · exact .inr ⟨(τ ⟨x, hx⟩).isLt, τ⁻¹, inv_mem hτ, congrArg Fin.val (τ.symm_apply_apply _)⟩
      | trans x y z _ _ ih ih' =>
        rcases ih with rfl | ⟨hx, τ, hτ, rfl⟩
        · exact ih'
        · rcases ih' with rfl | ⟨-, τ', hτ', rfl⟩
          · exact .inr ⟨hx, τ, hτ, rfl⟩
          · exact .inr ⟨hx, τ' * τ, mul_mem hτ' hτ, rfl⟩
    rcases hmoved h with heq | ⟨hx, τ, hτ, heq⟩
    · exact ⟨1, one_mem _, Fin.ext heq⟩
    · exact ⟨τ, hτ, Fin.ext heq⟩
  · rintro ⟨τ, hτ, rfl⟩
    induction hτ using Subgroup.closure_induction generalizing x with
    | mem σ hσ =>
      refine .rel _ _ ⟨_, hσ, ?_⟩
      rw [Array.getElem?_eq_getElem (by simp)]
      simp [vertexMap]
    | one => exact .refl _
    | mul σ τ _ _ ihσ ihτ => exact .trans _ _ _ ihτ ihσ
    | inv σ _ ih =>
      have h := ih (x := σ⁻¹ x)
      rw [show σ (σ⁻¹ x) = x from σ.apply_symm_apply x] at h
      exact .symm _ _ h

end Generated

section Orbits

variable {n : Nat} {G H : Subgroup (Equiv.Perm (Fin n))}

/-- The number of orbits of a group of permutations. -/
noncomputable def orbitCount (G : Subgroup (Equiv.Perm (Fin n))) : Nat :=
  Nat.card (MulAction.orbitRel.Quotient G (Fin n))

theorem orbitRel_iff {x y : Fin n} : MulAction.orbitRel G (Fin n) y x ↔ ∃ τ ∈ G, τ x = y := by
  rw [MulAction.orbitRel_apply, MulAction.mem_orbit_iff]
  exact ⟨fun ⟨τ, heq⟩ => ⟨τ, τ.2, heq⟩, fun ⟨τ, hτ, heq⟩ => ⟨⟨τ, hτ⟩, heq⟩⟩

theorem orbitCount_le (G : Subgroup (Equiv.Perm (Fin n))) : orbitCount G ≤ n := by
  have h := Nat.card_le_card_of_surjective _
    (Quotient.mk_surjective (s := MulAction.orbitRel G (Fin n)))
  rwa [Nat.card_fin] at h

theorem orbitCount_pos (hn : 0 < n) : 0 < orbitCount G :=
  have : Nonempty (MulAction.orbitRel.Quotient G (Fin n)) := ⟨Quotient.mk _ ⟨0, hn⟩⟩
  Nat.card_pos

/-- A larger group that joins two orbits has fewer of them. -/
theorem orbitCount_lt (hle : G ≤ H) {x y : Fin n} (hG : ¬∃ τ ∈ G, τ x = y) (hH : ∃ τ ∈ H, τ x = y) :
    orbitCount H < orbitCount G := by
  let join : MulAction.orbitRel.Quotient G (Fin n) → MulAction.orbitRel.Quotient H (Fin n) :=
    Quotient.map id fun a b hab => by
      obtain ⟨τ, hτ, heq⟩ := orbitRel_iff.mp hab
      exact orbitRel_iff.mpr ⟨τ, hle hτ, heq⟩
  have hsurj : Function.Surjective join := by
    rintro ⟨a⟩
    exact ⟨Quotient.mk _ a, rfl⟩
  have hinj : ¬Function.Injective join := fun hinj =>
    hG (orbitRel_iff.mp (Quotient.exact (@hinj (Quotient.mk _ y) (Quotient.mk _ x)
      (Quotient.sound (orbitRel_iff.mpr hH)))))
  have := Fintype.ofFinite (MulAction.orbitRel.Quotient G (Fin n))
  have := Fintype.ofFinite (MulAction.orbitRel.Quotient H (Fin n))
  rw [orbitCount, orbitCount, Nat.card_eq_fintype_card, Nat.card_eq_fintype_card]
  exact Fintype.card_lt_of_surjective_not_injective join hsurj hinj

end Orbits

namespace ColoredGraph

open Coloring

variable {g : ColoredGraph} {σ : Equiv.Perm (Fin g.size)} {colors : Array Nat} {path : FirstPath}
  {levels : List PathLevel} {leaf : Array Nat}

/-- The automorphisms that keep a colouring. -/
def stabilizer (g : ColoredGraph) (colors : Array Nat) : Subgroup (Equiv.Perm (Fin g.size)) where
  carrier := {σ | σ ∈ g.automorphisms ∧ ∀ v, colors.getD (σ v) 0 = colors.getD v 0}
  one_mem' := ⟨one_mem _, fun _ => rfl⟩
  mul_mem' {σ τ} hσ hτ := ⟨mul_mem hσ.1 hτ.1, fun v => (hσ.2 (τ v)).trans (hτ.2 v)⟩
  inv_mem' {σ} hσ := ⟨inv_mem hσ.1, fun v => by
    rw [← hσ.2 (σ⁻¹ v), show σ (σ⁻¹ v) = v from σ.apply_symm_apply v]⟩

theorem mem_stabilizer_iff (hsize : colors.size = g.size) :
    σ ∈ g.stabilizer colors ↔ σ ∈ g.automorphisms ∧ Carried σ colors colors :=
  and_congr_right fun _ => ⟨fun h => ⟨hsize, hsize, h⟩, fun h => h.color⟩

theorem stabilizer_refine (hg : g.WellFormed) (hsize : colors.size = g.size) :
    g.stabilizer (g.refine colors) = g.stabilizer colors := by
  ext σ
  rw [mem_stabilizer_iff hsize, mem_stabilizer_iff (size_refine hg hsize)]
  have hfiner := finer_refine hg.closed hsize
  exact and_congr_right fun hσ => ⟨.of_finer hfiner hfiner (.one hsize), carried_refine hg hσ⟩

theorem mem_stabilizer_individualize (hsize : colors.size = g.size) (base : Fin g.size) :
    σ ∈ g.stabilizer (individualize colors base) ↔ σ ∈ g.stabilizer colors ∧ σ base = base := by
  rw [mem_stabilizer_iff hsize, mem_stabilizer_iff (by rwa [size_individualize]), and_assoc]
  refine and_congr_right fun _ => ⟨Carried.apply_eq base base hsize rfl, fun ⟨hkept, hbase⟩ => ?_⟩
  have h := carried_individualize hkept base
  rwa [hbase] at h

/-- Colours of one vertex each are kept by nothing but the identity. -/
theorem stabilizer_eq_bot (hsize : colors.size = g.size) (hnone : targetCell? colors = none) :
    g.stabilizer colors = ⊥ := by
  rw [eq_bot_iff]
  intro σ hσ
  rw [Subgroup.mem_bot]
  ext v
  have hcolor := ((mem_stabilizer_iff hsize).mp hσ).2.getElem?_eq v
  rw [← Array.getElem?_toList, ← Array.getElem?_toList] at hcolor
  have hlt : (σ v : Nat) < colors.toList.length := by
    rw [Array.length_toList, hsize]
    exact (σ v).isLt
  exact (List.getElem?_inj hlt (targetCell?_eq_none_iff.mp hnone)).mp hcolor

theorem stabilizer_colors (g : ColoredGraph) : g.stabilizer g.colors = g.automorphisms :=
  le_antisymm (fun _ h => h.1) fun _ h => ⟨h, fun v => (h v).1⟩

theorem Descent.finer (hg : g.WellFormed) (h : g.Descent colors levels leaf)
    (hsize : colors.size = g.size) : Finer colors leaf := by
  induction h with
  | leaf => exact .refl _
  | @level colors _ _ base _ _ _ _ ih =>
    have hsize' := (size_individualize colors base).trans hsize
    exact (finer_individualize colors base).trans
      ((finer_refine hg.closed hsize').trans (ih (size_refine hg hsize')))

namespace GeneratorSearch

/-- What is known of the generators while the levels below a colouring are searched. -/
structure SoundAt (g : ColoredGraph) (budget : Nat) (colors : Array Nat) (s : GeneratorSearch) : Prop where
  stabilizes : ∀ image ∈ s.generators, ∃ σ ∈ g.stabilizer colors, σ ≠ 1 ∧ vertexMap σ = image
  orbits : s.orbits.Represents g.size (Sends s.generators)
  few : s.generators.length + orbitCount (generatedGroup g.size s.generators) ≤ g.size
  within : s.effort.visited ≤ budget

/-- A later search has all generators of an earlier one. -/
structure Extends (s s' : GeneratorSearch) : Prop where
  generators : s.generators ⊆ s'.generators
  exhausted : s.effort.exhausted = true → s'.effort.exhausted = true

theorem Extends.refl (s : GeneratorSearch) : s.Extends s :=
  ⟨List.Subset.refl _, id⟩

theorem Extends.trans {s s' s'' : GeneratorSearch} (h : s.Extends s') (h' : s'.Extends s'') :
    s.Extends s'' :=
  ⟨fun _ himage => h'.generators (h.generators himage), h'.exhausted ∘ h.exhausted⟩

theorem Extends.not_exhausted {s s' : GeneratorSearch} (h : s.Extends s')
    (hleft : s'.effort.exhausted = false) : s.effort.exhausted = false :=
  Bool.eq_false_iff.mpr fun hex => Bool.eq_false_iff.mp hleft (h.exhausted hex)

variable {g : ColoredGraph} {colors : Array Nat} {budget : Nat} {s : GeneratorSearch}

theorem SoundAt.generated_le (h : s.SoundAt g budget colors) :
    generatedGroup g.size s.generators ≤ g.stabilizer colors := by
  refine (Subgroup.closure_le _).mpr fun σ hσ => ?_
  obtain ⟨τ, hτ, -, heq⟩ := h.stabilizes _ hσ
  exact vertexMap_injective heq ▸ hτ

theorem SoundAt.perm (h : s.SoundAt g budget colors) :
    ∀ image ∈ s.generators, ∃ σ : Equiv.Perm (Fin g.size), vertexMap σ = image :=
  fun image himage => (h.stabilizes image himage).imp fun _ h => h.2.2

theorem sound_nil (g : ColoredGraph) (budget : Nat) (colors : Array Nat) :
    SoundAt g budget colors ⟨[], .ofSize g.size, {}⟩ where
  stabilizes := nofun
  orbits := (UnionFind.Represents.ofSize g.size).congr fun _ _ => iff_of_false id nofun
  few := (Nat.zero_add _).trans_le (orbitCount_le _)
  within := Nat.zero_le _

theorem SoundAt.mono {colors' : Array Nat} (h : s.SoundAt g budget colors)
    (hle : g.stabilizer colors ≤ g.stabilizer colors') : s.SoundAt g budget colors' where
  stabilizes image himage := (h.stabilizes image himage).imp fun _ hσ => ⟨hle hσ.1, hσ.2⟩
  orbits := h.orbits
  few := h.few
  within := h.within

/-- A new generator that joins two orbits. -/
theorem SoundAt.add (h : s.SoundAt g budget colors) {orbits : UnionFind} {effort : SearchEffort}
    (horbits : orbits.Represents g.size (Sends s.generators)) (hwithin : effort.visited ≤ budget)
    {σ : Equiv.Perm (Fin g.size)} (hσ : σ ∈ g.stabilizer colors) (hne : σ ≠ 1) {v : Fin g.size}
    (hnew : ¬∃ τ ∈ generatedGroup g.size s.generators, τ (σ v) = v) :
    SoundAt g budget colors ⟨s.generators ++ [vertexMap σ], orbits.unionImages (vertexMap σ), effort⟩ where
  stabilizes := List.forall_mem_append.mpr
    ⟨h.stabilizes, List.forall_mem_singleton.mpr ⟨σ, hσ, hne, rfl⟩⟩
  orbits := by
    refine (horbits.unionImages (Nat.le_of_eq (size_vertexMap σ)) fun y hy => ?_).congr fun x y => ?_
    · obtain ⟨v, rfl⟩ := Array.mem_ofFn.mp hy
      exact (σ v).isLt
    · simp [Sends, or_and_right, exists_or]
  few := by
    have hcounted := h.few
    have hmem : σ ∈ generatedGroup g.size (s.generators ++ [vertexMap σ]) :=
      mem_generatedGroup (by simp)
    have hcount := orbitCount_lt (generatedGroup_mono (List.subset_append_left _ _)) hnew
      ⟨σ⁻¹, inv_mem hmem, σ.symm_apply_apply v⟩
    dsimp only
    rw [List.length_append, List.length_singleton]
    omega
  within := hwithin

end GeneratorSearch

section Level

variable {g : ColoredGraph} {σ : Equiv.Perm (Fin g.size)} {colors : Array Nat} {path : FirstPath}
  {levels : List PathLevel} {cell budget depth : Nat} {s : GeneratorSearch}
  (hg : g.WellFormed) (hpath : ∀ level ∈ path.levels, targetCell? level.colors ≠ none)
  (hsize : colors.size = g.size) (base : Fin g.size)
  (hbelow : g.Descent (g.refine (individualize colors base)) levels path.leaf)
include hg hsize hbelow

include hpath in
/-- What is found from a vertex of the cell takes the vertex set apart there. -/
theorem descend_stabilizes {fuel : Nat} {effort : SearchEffort} {image : Array Nat} {w : Fin g.size}
    (hcolor : colors.getD base 0 = colors.getD w 0)
    (h : (g.descend path budget fuel (individualize colors w) depth effort).1 = some image) :
    ∃ σ ∈ g.stabilizer colors, σ ≠ 1 ∧ vertexMap σ = image ∧ σ base = w := by
  have hsize' : ∀ v, (individualize colors v).size = g.size := fun v =>
    (size_individualize _ v).trans hsize
  obtain ⟨σ, hσ, hne, himage, leaf, hfiner, hcarried⟩ := descend_carried hg hpath (hsize' w) h
  have hleaf : Finer (individualize colors base) path.leaf :=
    (finer_refine hg.closed (hsize' base)).trans (hbelow.finer hg (size_refine hg (hsize' base)))
  obtain ⟨hkept, hbase⟩ := Carried.apply_eq base w hsize hcolor
    (.of_finer hleaf hfiner (carried_individualize_swap hsize base w hcolor) hcarried)
  exact ⟨σ, (mem_stabilizer_iff hsize).mpr ⟨hσ, hkept⟩, hne, himage, hbase⟩

/-- An automorphism of the level that moves the vertex set apart is found. -/
theorem descend_isSome_of_stabilizer (hlevels : path.levels.drop (depth + 1) = levels)
    (hfew : path.levels.length ≤ g.size) (hσ : σ ∈ g.stabilizer colors) (hmoves : σ base ≠ base)
    {effort : SearchEffort} (hleft : (g.descend path budget (g.size + 1) (individualize colors (σ base))
      (depth + 1) effort).2.exhausted = false) :
    (g.descend path budget (g.size + 1) (individualize colors (σ base)) (depth + 1)
      effort).1.isSome = true := by
  obtain ⟨haut, hkept⟩ := (mem_stabilizer_iff hsize).mp hσ
  refine descend_isSome hg hbelow hlevels haut ?_
    (carried_refine hg haut (carried_individualize hkept base)) ?_ hleft
  · rintro rfl
    exact hmoves rfl
  · rw [← hlevels, List.length_drop]
    omega

include hpath in
/-- Trying a vertex leaves no automorphism of the level that takes the vertex set apart there and that the
generators do not make up for. -/
theorem sound_tryImage (cell : Nat) (hlevels : path.levels.drop (depth + 1) = levels)
    (hfew : path.levels.length ≤ g.size) {w : Fin g.size} (hcolor : colors.getD base 0 = colors.getD w 0)
    (h : s.SoundAt g budget colors) :
    let s' := g.tryImage path budget depth ⟨colors, cell, base⟩ s w
    s'.SoundAt g budget colors ∧ s.Extends s' ∧ (s'.effort.exhausted = false →
      ∀ σ ∈ g.stabilizer colors, σ base = w →
        ∃ τ ∈ generatedGroup g.size s'.generators, τ base = w) := by
  simp only
  unfold tryImage
  split
  · rename_i hskip
    refine ⟨h, .refl s, fun hleft σ hσ hw => ⟨1, one_mem _, ?_⟩⟩
    rw [hleft, Bool.false_or, beq_iff_eq] at hskip
    exact Fin.ext hskip.symm
  · rename_i hgo
    obtain ⟨hsame, hknown⟩ := h.orbits.same w.isLt base.isLt
    rw [eqvGen_sends_iff h.perm] at hknown
    have hne : w ≠ base := fun heq => hgo (by simp [heq])
    simp only
    split
    · rename_i hyes
      obtain ⟨τ, hτ, hbase⟩ := hknown.mp hyes
      refine ⟨⟨h.stabilizes, hsame, h.few, h.within⟩, ⟨List.Subset.refl _, id⟩, fun _ _ _ _ =>
        ⟨τ⁻¹, inv_mem hτ, ?_⟩⟩
      rw [← hbase]
      exact τ.symm_apply_apply w
    · rename_i hno
      have hgrows := g.descend_grows path budget (g.size + 1) (individualize colors w) (depth + 1) s.effort
      split
      · rename_i image effort hfound
        rw [hfound] at hgrows
        obtain ⟨σ, hσ, hmoves, rfl, hbase⟩ := descend_stabilizes hg hpath hsize base hbelow hcolor
          (congrArg Prod.fst hfound)
        subst hbase
        exact ⟨h.add hsame (hgrows.visited h.within) hσ hmoves fun hτ => hno (hknown.mpr hτ),
          ⟨List.subset_append_left _ _, hgrows.exhausted⟩,
          fun _ _ _ _ => ⟨σ, mem_generatedGroup (by simp), rfl⟩⟩
      · rename_i effort hnone
        rw [hnone] at hgrows
        refine ⟨⟨h.stabilizes, hsame, h.few, hgrows.visited h.within⟩,
          ⟨List.Subset.refl _, hgrows.exhausted⟩, fun hleft σ hσ hw => ?_⟩
        subst hw
        have hunused : (g.descend path budget (g.size + 1) (individualize colors (σ base)) (depth + 1)
            s.effort).2.exhausted = false := by
          rw [hnone]
          exact hleft
        have hfound := descend_isSome_of_stabilizer hg hsize base hbelow hlevels hfew hσ hne hunused
        rw [hnone] at hfound
        cases hfound

include hpath in
/-- Trying vertices of the cell in turn. -/
theorem sound_foldl_tryImage (hlevels : path.levels.drop (depth + 1) = levels)
    (hfew : path.levels.length ≤ g.size) (hcell : colors.getD base 0 = cell) {vs : List Nat}
    (hvs : vs ⊆ members colors cell) (h : s.SoundAt g budget colors) :
    let s' := vs.foldl (g.tryImage path budget depth ⟨colors, cell, base⟩) s
    s'.SoundAt g budget colors ∧ s.Extends s' ∧ (s'.effort.exhausted = false →
      ∀ σ ∈ g.stabilizer colors, (σ base : Nat) ∈ vs →
        ∃ τ ∈ generatedGroup g.size s'.generators, τ base = σ base) := by
  induction vs generalizing s with
  | nil => exact ⟨h, .refl s, fun _ _ _ => nofun⟩
  | cons w vs ih =>
    obtain ⟨hw, hvs⟩ := List.cons_subset.mp hvs
    obtain ⟨hlt, hcolor⟩ := mem_members.mp hw
    obtain ⟨hsound, hextends, hsettled⟩ := sound_tryImage hg hpath hsize base hbelow
      cell hlevels hfew (w := ⟨w, hsize ▸ hlt⟩) (hcell.trans hcolor.symm) h
    obtain ⟨hsound', hextends', hsettled'⟩ := ih hvs hsound
    refine ⟨hsound', hextends.trans hextends', fun hleft σ hσ hmem => ?_⟩
    rcases List.mem_cons.mp hmem with heq | hmem
    · obtain ⟨τ, hτ, hτw⟩ := hsettled (hextends'.not_exhausted hleft) σ hσ (Fin.ext heq)
      exact ⟨τ, generatedGroup_mono hextends'.generators hτ, hτw.trans (Fin.ext heq).symm⟩
    · exact hsettled' hleft σ hσ hmem

include hpath in
/-- After all vertices of the cell the generators make up for all automorphisms of the level. -/
theorem sound_searchLevel (hlevels : path.levels.drop (depth + 1) = levels)
    (hfew : path.levels.length ≤ g.size) (hbase : (base : Nat) ∈ members colors cell)
    (h : s.SoundAt g budget (g.refine (individualize colors base)))
    (hall : s.effort.exhausted = false →
      g.stabilizer (g.refine (individualize colors base)) ≤ generatedGroup g.size s.generators) :
    let s' := g.searchLevel path budget s (⟨colors, cell, base⟩, depth)
    s'.SoundAt g budget colors ∧
      (s'.effort.exhausted = false → g.stabilizer colors ≤ generatedGroup g.size s'.generators) := by
  have hbelow_iff : ∀ {σ}, σ ∈ g.stabilizer (g.refine (individualize colors base)) ↔
      σ ∈ g.stabilizer colors ∧ σ base = base := fun {σ} => by
    rw [stabilizer_refine hg ((size_individualize _ _).trans hsize), mem_stabilizer_individualize hsize]
  have hcell := (mem_members.mp hbase).2
  obtain ⟨hsound, hextends, hsettled⟩ := sound_foldl_tryImage hg hpath hsize base hbelow hlevels hfew
    hcell (List.Subset.refl _) (h.mono fun σ hσ => (hbelow_iff.mp hσ).1)
  refine ⟨hsound, fun hleft σ hσ => ?_⟩
  have hmem : (σ base : Nat) ∈ members colors cell := by
    rw [mem_members, hsize, hσ.2 base]
    exact ⟨(σ base).isLt, hcell⟩
  obtain ⟨τ, hτ, heq⟩ := hsettled hleft σ hσ hmem
  -- the rest of the automorphism keeps the vertex set apart
  have hrest : τ⁻¹ * σ ∈ generatedGroup g.size s.generators :=
    hall (hextends.not_exhausted hleft)
      (hbelow_iff.mpr ⟨mul_mem (inv_mem (hsound.generated_le hτ)) hσ, by
        rw [Equiv.Perm.mul_apply, ← heq]
        exact τ.symm_apply_apply base⟩)
  rw [← mul_inv_cancel_left τ σ]
  exact mul_mem hτ (generatedGroup_mono hextends.generators hrest)

end Level

variable {g : ColoredGraph} {colors : Array Nat} {path : FirstPath} {levels : List PathLevel}
  {budget depth : Nat}

/-- The levels are searched from the deepest one up. -/
theorem sound_searchLevels (budget : Nat) (hg : g.WellFormed)
    (hpath : ∀ level ∈ path.levels, targetCell? level.colors ≠ none) (hsize : colors.size = g.size)
    (hfew : path.levels.length ≤ g.size) (hdescent : g.Descent colors levels path.leaf)
    (hlevels : path.levels.drop depth = levels) :
    let s := (levels.zipIdx depth).foldr (fun level s => g.searchLevel path budget s level)
      ⟨[], .ofSize g.size, {}⟩
    s.SoundAt g budget colors ∧
      (s.effort.exhausted = false → g.stabilizer colors ≤ generatedGroup g.size s.generators) := by
  induction levels generalizing colors depth with
  | nil =>
    refine ⟨GeneratorSearch.sound_nil g budget colors, fun _ => ?_⟩
    cases hdescent with
    | leaf hnone =>
      rw [stabilizer_eq_bot hsize hnone]
      exact bot_le
  | cons level levels ih =>
    cases hdescent with
    | level hcell hbase hbelow =>
      rename_i cell base
      have hlt := (mem_members.mp hbase).1
      rw [hsize] at hlt
      have hrest : path.levels.drop (depth + 1) = levels := by
        rw [← List.drop_drop, hlevels]
        rfl
      obtain ⟨hsound, hall⟩ := ih (size_refine hg ((size_individualize _ _).trans hsize)) hbelow hrest
      exact sound_searchLevel hg hpath hsize ⟨base, hlt⟩ hbelow hrest hfew hbase hsound hall

/-- The generators are automorphisms that move a vertex, fewer than there are vertices, and they generate
all automorphisms unless the budget was used up. -/
theorem findGenerators_generate (hg : g.WellFormed) (budget : Nat) :
    (∀ image ∈ (g.findGenerators budget).generators,
      ∃ σ ∈ g.automorphisms, σ ≠ 1 ∧ vertexMap σ = image) ∧
    (g.findGenerators budget).generators.length ≤ g.size - 1 ∧
    (g.findGenerators budget).visited ≤ budget ∧
    ((g.findGenerators budget).complete = true →
      generatedGroup g.size (g.findGenerators budget).generators = g.automorphisms) := by
  have hall := (stabilizer_refine hg (rfl : g.colors.size = g.size)).trans g.stabilizer_colors
  have hcells : ∀ level ∈ g.firstPath.levels, targetCell? level.colors ≠ none :=
    firstPathWithin_targetCell? g.size (g.refine g.colors)
  obtain ⟨hsound, hcomplete⟩ := sound_searchLevels budget hg hcells (size_refine hg rfl)
    (length_firstPathWithin _ _) (firstPath_descent hg) List.drop_zero
  rw [← List.foldl_reverse] at hsound hcomplete
  have hfew := hsound.few
  rw [hall] at hcomplete
  refine ⟨fun image himage => ?_, ?_, hsound.within, fun hleft => ?_⟩
  · exact (hsound.stabilizes image himage).imp fun σ hσ => ⟨hσ.1.1, hσ.2⟩
  · rcases Nat.eq_zero_or_pos g.size with hzero | hpos
    · exact Nat.le_trans (Nat.le_add_right _ _) (hfew.trans (by omega))
    · have hcount := orbitCount_pos (G := generatedGroup g.size (g.findGenerators budget).generators) hpos
      have hfew : (g.findGenerators budget).generators.length +
        orbitCount (generatedGroup g.size (g.findGenerators budget).generators) ≤ g.size := hfew
      omega
  · exact le_antisymm (hall ▸ hsound.generated_le) (hcomplete (by simpa [findGenerators] using hleft))

/-- A cycle of four vertices of one colour. -/
def fourCycle : ColoredGraph :=
  .ofEdges #[0, 0, 0, 0] [(0, 1, 0), (1, 2, 0), (2, 3, 0), (3, 0, 0)]

theorem fourCycle_generate : fourCycle.WellFormed ∧ (fourCycle.findGenerators 10).complete = true ∧
    (fourCycle.findGenerators 10).generators.length = 2 ∧
    generatedGroup fourCycle.size (fourCycle.findGenerators 10).generators = fourCycle.automorphisms :=
  have hg : fourCycle.WellFormed := wellFormed_ofEdges (by decide)
  have hcomplete : (fourCycle.findGenerators 10).complete = true := by decide +kernel
  ⟨hg, hcomplete, by decide +kernel, (findGenerators_generate hg 10).2.2.2 hcomplete⟩

end ColoredGraph

end RankedPlans
