import Mathlib.GroupTheory.GroupAction.Defs
import RankedPlans.Proofs.Symmetry.Classes
import RankedPlans.Proofs.Symmetry.OrbitMinimum

/-! The orbits that a group reports. Merging every number with its image under single generators joins exactly the
orbits of the group that the generators make: in a finite group a product of generators undoes each of them, so what
the group maps to each other, some generators in turn do as well. -/

namespace RankedPlans

section Listing

variable {n : Nat} {G : Subgroup (Equiv.Perm (Fin n))} {images : List (Array Nat)} {x y : Nat}
  {classes : List (List Nat)}

/-- The orbits of more than one number under a group of permutations, each in ascending order, and in the order of
their least numbers. -/
structure ListsOrbits (G : Subgroup (Equiv.Perm (Fin n))) (classes : List (List Nat)) : Prop where
  ascending : ∀ c ∈ classes, c.Pairwise (· < ·)
  ordered : (classes.map (·.headD 0)).Pairwise (· < ·)
  orbits : {s : Set Nat | ∃ c ∈ classes, s = {x | x ∈ c}} =
    {s | (∃ x : Fin n, s = Fin.val '' MulAction.orbit G x) ∧ s.Nontrivial}

theorem mem_val_orbit_iff {x : Fin n} : y ∈ Fin.val '' MulAction.orbit G x ↔ ∃ τ ∈ G, (τ x : Nat) = y := by
  constructor
  · rintro ⟨_, ⟨τ, rfl⟩, rfl⟩
    exact ⟨τ, τ.2, rfl⟩
  · rintro ⟨τ, hτ, rfl⟩
    exact ⟨_, ⟨⟨τ, hτ⟩, rfl⟩, rfl⟩

/-- Two numbers are listed together exactly if the group maps the one to the other. -/
theorem ListsOrbits.together_iff (h : ListsOrbits G classes) (hne : x ≠ y) :
    (∃ c ∈ classes, x ∈ c ∧ y ∈ c) ↔ ∃ hx : x < n, ∃ τ ∈ G, (τ ⟨x, hx⟩ : Nat) = y := by
  constructor
  · rintro ⟨c, hc, hx, hy⟩
    obtain ⟨⟨z, hz⟩, -⟩ := (Set.ext_iff.mp h.orbits {x | x ∈ c}).mp ⟨c, hc, rfl⟩
    obtain ⟨τ, hτ, rfl⟩ := mem_val_orbit_iff.mp (hz ▸ hx : x ∈ Fin.val '' MulAction.orbit G z)
    obtain ⟨υ, hυ, rfl⟩ := mem_val_orbit_iff.mp (hz ▸ hy : y ∈ Fin.val '' MulAction.orbit G z)
    exact ⟨(τ z).isLt, υ * τ⁻¹, mul_mem hυ (inv_mem hτ), by simp⟩
  · rintro ⟨hx, hy⟩
    have horbit : Fin.val '' MulAction.orbit G ⟨x, hx⟩ ∈ {s : Set Nat | ∃ c ∈ classes, s = {x | x ∈ c}} := by
      rw [h.orbits]
      exact ⟨⟨_, rfl⟩, x, mem_val_orbit_iff.mpr ⟨1, one_mem _, rfl⟩, y, mem_val_orbit_iff.mpr hy, hne⟩
    obtain ⟨c, hc, heq⟩ := horbit
    have hmem : ∀ z, z ∈ c ↔ z ∈ Fin.val '' MulAction.orbit G ⟨x, hx⟩ := fun z => heq ▸ Iff.rfl
    exact ⟨c, hc, (hmem x).mpr (mem_val_orbit_iff.mpr ⟨1, one_mem _, rfl⟩),
      (hmem y).mpr (mem_val_orbit_iff.mpr hy)⟩

theorem foldl_unionImages {u : UnionFind} {rel : Nat → Nat → Prop} (h : u.Represents n rel)
    (hsize : ∀ image ∈ images, image.size ≤ n) (hlt : ∀ image ∈ images, ∀ y ∈ image, y < n) :
    (images.foldl UnionFind.unionImages u).Represents n fun x y => rel x y ∨ Sends images x y := by
  induction images generalizing u rel with
  | nil => exact h.congr fun x y => by simp [Sends]
  | cons image images ih =>
    obtain ⟨hsize', hsize⟩ := List.forall_mem_cons.mp hsize
    obtain ⟨hlt', hlt⟩ := List.forall_mem_cons.mp hlt
    refine (ih (h.unionImages hsize' hlt') hsize hlt).congr fun x y => ?_
    simp only [Sends, List.exists_mem_cons_iff, or_assoc]

theorem mem_vertexMap_lt {σ : Equiv.Perm (Fin n)} (hy : y ∈ vertexMap σ) : y < n := by
  obtain ⟨v, rfl⟩ := Array.mem_ofFn.mp hy
  exact (σ v).isLt

theorem one_lt_length {l : List Nat} (hx : x ∈ l) (hy : y ∈ l) (hne : x ≠ y) : 1 < l.length := by
  obtain - | ⟨z, - | ⟨w, l⟩⟩ := l
  · cases hx
  · exact absurd ((List.mem_singleton.mp hx).trans (List.mem_singleton.mp hy).symm) hne
  · exact Nat.succ_lt_succ (Nat.succ_pos _)

theorem linked_iff_mem_orbit {u : UnionFind} (h : u.Represents n (Sends images))
    (hperm : ∀ image ∈ images, ∃ σ : Equiv.Perm (Fin n), vertexMap σ = image) (x : Fin n) (y : Nat) :
    y < n ∧ u.Linked x y ↔ y ∈ Fin.val '' MulAction.orbit (generatedGroup n images) x := by
  rw [h.linked_iff, mem_val_orbit_iff]
  constructor
  · rintro ⟨hy, hxy⟩
    obtain ⟨τ, hτ, heq⟩ := (eqvGen_sends_iff hperm (y := ⟨y, hy⟩)).mp hxy
    exact ⟨τ, hτ, congrArg Fin.val heq⟩
  · rintro ⟨τ, hτ, rfl⟩
    exact ⟨(τ x).isLt, (eqvGen_sends_iff hperm).mpr ⟨τ, hτ, rfl⟩⟩

/-- The classes that are joined are the orbits of the group that the maps generate. -/
theorem listsOrbits_classes {u : UnionFind} (h : u.Represents n (Sends images))
    (hperm : ∀ image ∈ images, ∃ σ : Equiv.Perm (Fin n), vertexMap σ = image) :
    ListsOrbits (generatedGroup n images) u.classes.2 := by
  have hlinked := linked_iff_mem_orbit h hperm
  refine ⟨fun c hc => (h.valid.mem_classes_iff.mp hc).1, u.classes_ordered, Set.ext fun s => ⟨?_, ?_⟩⟩
  · rintro ⟨members, hlisted, rfl⟩
    obtain ⟨hascending, hlength, x, hx, hmem⟩ := h.valid.mem_classes_iff.mp hlisted
    have hfirst : members[0] ∈ members := List.getElem_mem _
    have hsecond : members[1] ∈ members := List.getElem_mem _
    have hlt : members[0] < members[1] := List.pairwise_iff_getElem.mp hascending 0 1 _ _ Nat.zero_lt_one
    exact ⟨⟨⟨x, hx⟩, Set.ext fun y => (hmem y).trans (hlinked ⟨x, hx⟩ y)⟩, _, hfirst, _, hsecond, Nat.ne_of_lt hlt⟩
  · rintro ⟨⟨x, rfl⟩, hnontrivial⟩
    classical
    have hmem : ∀ y, y ∈ (List.range n).filter (u.Linked x ·) ↔ y < n ∧ u.Linked x y := fun y => by simp
    refine ⟨(List.range n).filter (u.Linked x ·), h.valid.mem_classes_iff.mpr ⟨?_, ?_, x, x.isLt, hmem⟩, ?_⟩
    · exact List.pairwise_lt_range.sublist List.filter_sublist
    · obtain ⟨y, hy, z, hz, hne⟩ := hnontrivial
      have hy := (hmem y).mpr ((hlinked x y).mpr hy)
      have hz := (hmem z).mpr ((hlinked x z).mpr hz)
      exact one_lt_length hy hz hne
    · exact Set.ext fun y => ((hmem y).trans (hlinked x y)).symm

/-- Merging every number with its images, if there are any, joins the orbits. -/
theorem listsOrbits_orbits (hperm : ∀ image ∈ images, ∃ σ : Equiv.Perm (Fin n), vertexMap σ = image) :
    ListsOrbits (generatedGroup n images) (SymmetryGroup.orbits ((images.map Array.size).max?.getD 0) images) := by
  have hsize : ∀ image ∈ images, image.size = n := fun image himage => by
    obtain ⟨σ, rfl⟩ := hperm image himage
    exact size_vertexMap σ
  have hlt : ∀ image ∈ images, ∀ y ∈ image, y < n := fun image himage y hy => by
    obtain ⟨σ, rfl⟩ := hperm image himage
    exact mem_vertexMap_lt hy
  cases images with
  | nil =>
    have hbot : generatedGroup n [] = ⊥ := by simp [generatedGroup]
    rw [show SymmetryGroup.orbits _ [] = [] by decide +kernel, hbot]
    refine ⟨List.forall_mem_nil _, .nil, Set.ext fun s => ⟨by simp, ?_⟩⟩
    rintro ⟨⟨x, rfl⟩, y, hy, z, hz, hne⟩
    obtain ⟨τ, rfl, rfl⟩ := mem_val_orbit_iff.mp hy
    obtain ⟨τ, rfl, rfl⟩ := mem_val_orbit_iff.mp hz
    exact absurd rfl hne
  | cons image rest =>
    have hmax : ((image :: rest).map Array.size).max? = some n :=
      List.max?_eq_some_iff.mpr ⟨List.mem_map.mpr ⟨image, List.mem_cons_self, hsize _ List.mem_cons_self⟩,
        List.forall_mem_map.mpr fun image himage => (hsize image himage).le⟩
    rw [hmax, Option.getD_some]
    refine listsOrbits_classes ?_ hperm
    have hjoined := foldl_unionImages (.ofSize n) (fun image himage => (hsize image himage).le) hlt
    exact hjoined.congr fun x y => iff_of_eq (false_or _)

end Listing

namespace SymmetryGroup

variable {t : Task} {g : SymmetryGroup} {n : Nat}

/-- The group of permutations of the variables that the generators make. -/
def variableGroup (t : Task) (g : SymmetryGroup) : Subgroup (Equiv.Perm (Fin t.vars.size)) :=
  generatedGroup t.vars.size (g.generators.toList.map (·.vars))

/-- The image of a variable under some generators in turn. -/
def mapVariable (g : SymmetryGroup) (trace : List Nat) (v : Nat) : Nat :=
  trace.foldl (fun v i => (g.generator i).vars.getD v 0) v

/-- What the group that the generators make maps to each other, some generators in turn do as well: in a finite group
no inverses are needed. -/
theorem exists_trace_iff (image : Generator → Array Nat)
    (hperm : ∀ gen ∈ g.generators.toList, ∃ σ : Equiv.Perm (Fin n), vertexMap σ = image gen) (x : Fin n) (y : Nat) :
    (∃ τ ∈ generatedGroup n (g.generators.toList.map image), (τ x : Nat) = y) ↔
      ∃ trace, g.Valid trace ∧ trace.foldl (fun x i => (image (g.generator i)).getD x 0) (x : Nat) = y := by
  have hgen : ∀ i < g.generators.size, g.generator i ∈ g.generators.toList := fun i hi => by
    rw [generator, Array.getD_eq_getD_getElem?, Array.getElem?_eq_getElem hi]
    exact Array.getElem_mem_toList hi
  constructor
  · rintro ⟨τ, hτ, rfl⟩
    rw [generatedGroup, ← Subgroup.mem_toSubmonoid, Subgroup.closure_toSubmonoid_of_finite] at hτ
    induction hτ using Submonoid.closure_induction_right generalizing x with
    | one => exact ⟨[], List.forall_mem_nil _, rfl⟩
    | mul_right τ _ σ hσ ih =>
      obtain ⟨gen, hmem, heq⟩ := List.mem_map.mp hσ
      obtain ⟨i, hi, rfl⟩ := List.mem_iff_getElem.mp hmem
      obtain ⟨trace, hvalid, htrace⟩ := ih (x := σ x)
      refine ⟨i :: trace, List.forall_mem_cons.mpr ⟨by simpa using hi, hvalid⟩, ?_⟩
      have hi : g.generator i = g.generators.toList[i] := by
        simp [generator, Array.getD_eq_getD_getElem?, Array.getElem?_eq_getElem (by simpa using hi)]
      rw [List.foldl_cons, hi, heq, getD_vertexMap, htrace]
      rfl
  · rintro ⟨trace, hvalid, rfl⟩
    induction trace generalizing x with
    | nil => exact ⟨1, one_mem _, rfl⟩
    | cons i trace ih =>
      obtain ⟨hi, hvalid⟩ := List.forall_mem_cons.mp hvalid
      obtain ⟨σ, hσ⟩ := hperm _ (hgen i hi)
      obtain ⟨τ, hτ, heq⟩ := ih hvalid (x := σ x)
      refine ⟨τ * σ, mul_mem hτ (mem_generatedGroup (hσ ▸ List.mem_map_of_mem (hgen i hi))), ?_⟩
      rw [List.foldl_cons, ← hσ, getD_vertexMap, ← heq]
      rfl

section Report

variable (hvars : ∀ gen ∈ g.generators.toList, ∃ σ : Equiv.Perm (Fin t.vars.size), vertexMap σ = gen.vars)
  (hoperators : ∀ gen ∈ g.generators.toList, ∃ σ : Equiv.Perm (Fin t.operators.size), vertexMap σ = gen.operators)

include hvars in
theorem listsOrbits_variableOrbits : ListsOrbits (g.variableGroup t) g.variableOrbits :=
  listsOrbits_orbits (List.forall_mem_map.mpr hvars)

include hvars in
theorem variables_together_iff {v w : Nat} (hne : v ≠ w) : (∃ c ∈ g.variableOrbits, v ∈ c ∧ w ∈ c) ↔
    v < t.vars.size ∧ ∃ trace, g.Valid trace ∧ g.mapVariable trace v = w := by
  rw [(listsOrbits_variableOrbits hvars).together_iff hne, ← exists_prop]
  exact exists_congr fun hv => exists_trace_iff Generator.vars hvars ⟨v, hv⟩ w

include hoperators in
theorem listsOrbits_operatorOrbits : ListsOrbits (g.operatorGroup t) g.operatorOrbits :=
  listsOrbits_orbits (List.forall_mem_map.mpr hoperators)

include hoperators in
theorem operators_together_iff {op op' : Nat} (hne : op ≠ op') : (∃ c ∈ g.operatorOrbits, op ∈ c ∧ op' ∈ c) ↔
    op < t.operators.size ∧ ∃ trace, g.Valid trace ∧ g.mapOperator trace op = op' := by
  rw [(listsOrbits_operatorOrbits hoperators).together_iff hne, ← exists_prop]
  exact exists_congr fun hop => exists_trace_iff Generator.operators hoperators ⟨op, hop⟩ op'

end Report

section OfTask

variable {policy : SymmetryPolicy} {fixInitial : Bool}

theorem ofTask_vars {gen : Generator} (h : gen ∈ (ofTask t policy fixInitial).generators.toList) :
    ∃ σ : Equiv.Perm (Fin t.vars.size), vertexMap σ = gen.vars := by
  obtain ⟨r, -, rfl⟩ := ofTask_relabelling h
  exact ⟨r.vars, rfl⟩

/-- The reports of a computed group list exactly the orbits of more than one variable, and of more than one operator,
under the group that its generators make. So two variables or operators stand in one list exactly if some generators
in turn map the one to the other. -/
theorem ofTask_orbits (t : Task) (policy : SymmetryPolicy) (fixInitial : Bool) :
    ListsOrbits ((ofTask t policy fixInitial).variableGroup t) (ofTask t policy fixInitial).variableOrbits ∧
    ListsOrbits ((ofTask t policy fixInitial).operatorGroup t) (ofTask t policy fixInitial).operatorOrbits ∧
    (∀ v w, v ≠ w → ((∃ c ∈ (ofTask t policy fixInitial).variableOrbits, v ∈ c ∧ w ∈ c) ↔
      v < t.vars.size ∧ ∃ trace, (ofTask t policy fixInitial).Valid trace ∧
        (ofTask t policy fixInitial).mapVariable trace v = w)) ∧
    ∀ op op', op ≠ op' → ((∃ c ∈ (ofTask t policy fixInitial).operatorOrbits, op ∈ c ∧ op' ∈ c) ↔
      op < t.operators.size ∧ ∃ trace, (ofTask t policy fixInitial).Valid trace ∧
        (ofTask t policy fixInitial).mapOperator trace op = op') :=
  ⟨listsOrbits_variableOrbits fun _ => ofTask_vars, listsOrbits_operatorOrbits fun _ => ofTask_operators,
    fun _ _ => variables_together_iff fun _ => ofTask_vars,
    fun _ _ => operators_together_iff fun _ => ofTask_operators⟩

/-- Three switches that are alike form one orbit, and so do their operators. -/
theorem ofTask_orbits_threeSwitches :
    (ofTask threeSwitches {} true).variableOrbits = [[0, 1, 2]] ∧
    ∃ trace, (ofTask threeSwitches {} true).Valid trace ∧
      (ofTask threeSwitches {} true).mapOperator trace 2 = 0 := by
  have horbits : (ofTask threeSwitches {} true).variableOrbits = [[0, 1, 2]] ∧
      (ofTask threeSwitches {} true).operatorOrbits = [[0, 1, 2]] := by
    rw [ofTask_threeSwitches]
    decide +kernel
  have htogether := (ofTask_orbits threeSwitches {} true).2.2.2 2 0 (by decide)
  rw [horbits.2] at htogether
  exact ⟨horbits.1, (htogether.mp ⟨[0, 1, 2], List.mem_singleton_self _, by decide, by decide⟩).2⟩

end OfTask

end SymmetryGroup

end RankedPlans
