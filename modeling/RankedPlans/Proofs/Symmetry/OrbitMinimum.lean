import Mathlib.Data.Finite.Perm
import Mathlib.Data.List.Lex
import Mathlib.Data.Set.Card
import Mathlib.GroupTheory.OrderOfElement
import RankedPlans.Pattern.WholeName
import RankedPlans.Proofs.Plan.Key
import RankedPlans.Proofs.Symmetry.GeneratedGroup
import RankedPlans.Proofs.Symmetry.PlanOrbit
import RankedPlans.Proofs.Symmetry.Relabelling

/-! The walk over the orbit of a plan meets every key of the orbit, unless the limit is too small for them or the
keys forget what a generator may bring back: where the generators keep the marks of operators, the key of
a plan is the least key of its orbit. -/

namespace RankedPlans

/-- The image of a plan under a permutation of the operators. -/
def permutePlan {n : Nat} (σ : Equiv.Perm (Fin n)) (plan : Plan) : Plan :=
  plan.map fun op => (vertexMap σ).getD op 0

section PermutePlan

variable {n : Nat} {σ τ : Equiv.Perm (Fin n)} {plan : Plan}

theorem permutePlan_lt (hplan : ∀ op ∈ plan, op < n) : ∀ op ∈ permutePlan σ plan, op < n := by
  refine List.forall_mem_map.mpr fun op hop => ?_
  have hget := getD_vertexMap σ ⟨op, hplan op hop⟩
  exact hget ▸ (σ _).isLt

theorem permutePlan_one (hplan : ∀ op ∈ plan, op < n) : permutePlan (1 : Equiv.Perm (Fin n)) plan = plan := by
  refine (List.map_congr_left fun op hop => ?_).trans (List.map_id plan)
  exact getD_vertexMap 1 ⟨op, hplan op hop⟩

theorem permutePlan_mul (hplan : ∀ op ∈ plan, op < n) :
    permutePlan (σ * τ) plan = permutePlan σ (permutePlan τ plan) := by
  rw [permutePlan, permutePlan, permutePlan, List.map_map]
  refine List.map_congr_left fun op hop => ?_
  have hτ := getD_vertexMap τ ⟨op, hplan op hop⟩
  have hστ := getD_vertexMap (σ * τ) ⟨op, hplan op hop⟩
  simp only at hτ hστ
  rw [Function.comp_apply, hτ, hστ, getD_vertexMap]
  rfl

end PermutePlan

namespace OrbitWalk

variable {encode : Plan → List Nat} {limit : Nat} {p : Plan → Prop} {w w' : OrbitWalk}
  {generators : List Generator}

/-- The plans met have a property, each is met with its key, and the keys met are those known, each once. -/
structure Recorded (encode : Plan → List Nat) (p : Plan → Prop) (w : OrbitWalk) : Prop where
  keeps : w.Keeps encode p
  mem_seen : ∀ k, w.seen.contains k = true ↔ ∃ x ∈ w.met, x.2 = k
  nodup : (w.met.toList.map Prod.snd).Nodup
  size_eq : w.seen.size = w.met.size

theorem Recorded.ncard_keys (h : w.Recorded encode p) : {k | ∃ x ∈ w.met, x.2 = k}.ncard = w.seen.size := by
  have hkeys : {k | ∃ x ∈ w.met, x.2 = k} = ↑(w.met.toList.map Prod.snd).toFinset := by
    ext k
    simp
  rw [hkeys, Set.ncard_coe_finset, List.toFinset_card_of_nodup h.nodup, List.length_map,
    Array.length_toList, ← h.size_eq]

/-- A later walk has met the same plans first and then others. -/
structure Grows (w w' : OrbitWalk) : Prop where
  met : w.met.toList <+: w'.met.toList
  seen : ∀ k, w.seen.contains k = true → w'.seen.contains k = true
  size_le : w.seen.size ≤ w'.seen.size

theorem Grows.refl (w : OrbitWalk) : w.Grows w :=
  ⟨List.prefix_refl _, fun _ => id, Nat.le_refl _⟩

theorem Grows.trans {w'' : OrbitWalk} (h : w.Grows w') (h' : w'.Grows w'') : w.Grows w'' :=
  ⟨h.met.trans h'.met, fun k hk => h'.seen k (h.seen k hk), Nat.le_trans h.size_le h'.size_le⟩

/-- The key of a plan is known, if there was room for it. -/
def Knows (encode : Plan → List Nat) (limit : Nat) (w : OrbitWalk) (plan : Plan) : Prop :=
  limit ≤ w.seen.size ∨ w.seen.contains (encode plan) = true

theorem Knows.grows {plan : Plan} (h : w.Knows encode limit plan) (hgrows : w.Grows w') :
    w'.Knows encode limit plan :=
  h.imp (fun hle => Nat.le_trans hle hgrows.size_le) (hgrows.seen _)

theorem start_recorded {plan : Plan} (h : p plan) : (start encode plan).Recorded encode p where
  keeps := start_keeps h
  mem_seen k := by simp [start, Std.TreeSet.contains_insert]
  nodup := List.nodup_singleton _
  size_eq := by simp [start, Std.TreeSet.size_insert]

theorem Recorded.meet (limit : Nat) {g : Generator} {plan : Plan} (h : w.Recorded encode p)
    (hg : ∀ plan, p plan → p (g.mapPlan plan)) (hplan : p plan) :
    (meet encode limit plan w g).Recorded encode p ∧ w.Grows (meet encode limit plan w g) ∧
      (meet encode limit plan w g).Knows encode limit (g.mapPlan plan) := by
  have hkeeps : (OrbitWalk.meet encode limit plan w g).Keeps encode p := h.keeps.meet hg hplan
  unfold OrbitWalk.meet at hkeeps ⊢
  split
  · exact ⟨h, .refl w, .inl ‹_›⟩
  · simp only at hkeeps ⊢
    split
    · exact ⟨h, .refl w, .inr ‹_›⟩
    · rename_i hroom hnew
      rw [if_neg hroom, if_neg hnew] at hkeeps
      have hseen : ∀ k, (w.seen.insert (encode (g.mapPlan plan))).contains k = true ↔
          k = encode (g.mapPlan plan) ∨ w.seen.contains k = true := fun k => by
        rw [Std.TreeSet.contains_insert, Bool.or_eq_true, beq_iff_eq,
          Std.LawfulEqCmp.compare_eq_iff_eq, eq_comm]
      have hsize : (w.seen.insert (encode (g.mapPlan plan))).size = w.seen.size + 1 := by
        rw [Std.TreeSet.size_insert, if_neg hnew]
      refine ⟨⟨hkeeps, fun k => ?_, ?_, ?_⟩, ⟨?_, fun k hk => (hseen k).mpr (.inr hk), hsize ▸ Nat.le_succ _⟩,
        .inr ((hseen _).mpr (.inl rfl))⟩
      · rw [hseen, h.mem_seen]
        simp only [Array.mem_push, or_and_right, exists_or, exists_eq_left]
        rw [or_comm, eq_comm (a := k)]
      · rw [Array.toList_push, List.map_append, List.map_singleton, List.nodup_append]
        refine ⟨h.nodup, List.nodup_singleton _, ?_⟩
        rintro _ hmem k hk rfl
        obtain ⟨x, hx, heq⟩ := List.mem_map.mp hmem
        exact hnew ((h.mem_seen _).mpr ⟨x, Array.mem_toList_iff.mp hx,
          heq.trans (List.mem_singleton.mp hk)⟩)
      · rw [hsize, Array.size_push, h.size_eq]
      · rw [Array.toList_push]
        exact List.prefix_append _ _

/-- Meeting the images under all generators. -/
theorem Recorded.foldl_meet (limit : Nat) {plan : Plan} (h : w.Recorded encode p)
    (hg : ∀ g ∈ generators, ∀ plan, p plan → p (g.mapPlan plan)) (hplan : p plan) :
    let w' := generators.foldl (OrbitWalk.meet encode limit plan) w
    w'.Recorded encode p ∧ w.Grows w' ∧ ∀ g ∈ generators, w'.Knows encode limit (g.mapPlan plan) := by
  induction generators generalizing w with
  | nil => exact ⟨h, .refl w, nofun⟩
  | cons g generators ih =>
    obtain ⟨hg, hrest⟩ := List.forall_mem_cons.mp hg
    obtain ⟨hw, hgrows, hknows⟩ := h.meet limit hg hplan
    obtain ⟨hw', hgrows', hall⟩ := ih hw hrest
    exact ⟨hw', hgrows.trans hgrows', List.forall_mem_cons.mpr ⟨hknows.grows hgrows', hall⟩⟩

/-- The images of the first plans met are known. -/
def Processed (encode : Plan → List Nat) (limit : Nat) (generators : List Generator) (i : Nat)
    (w : OrbitWalk) : Prop :=
  ∀ x ∈ w.met.toList.take i, ∀ g ∈ generators, w.Knows encode limit (g.mapPlan x.1)

/-- The walk ends when the images of all plans met are known. -/
theorem Recorded.run (hg : ∀ g ∈ generators, ∀ plan, p plan → p (g.mapPlan plan)) {fuel i : Nat}
    (h : w.Recorded encode p) (hi : w.Processed encode limit generators i) (hfuel : limit ≤ fuel + i) :
    let w' := run encode limit generators fuel i w
    w'.Recorded encode p ∧ w.Grows w' ∧
      ∀ x ∈ w'.met, ∀ g ∈ generators, w'.Knows encode limit (g.mapPlan x.1) := by
  -- either the limit is reached or every plan met has been looked at
  have hend : ∀ {i : Nat} {w : OrbitWalk}, w.Processed encode limit generators i →
      limit ≤ w.seen.size ∨ w.met.size ≤ i →
      ∀ x ∈ w.met, ∀ g ∈ generators, w.Knows encode limit (g.mapPlan x.1) := by
    rintro i w hi (hlimit | hsize) x hx g hmem
    · exact .inl hlimit
    · refine hi x ?_ g hmem
      rwa [List.take_of_length_le (by simpa using hsize), Array.mem_toList_iff]
  induction fuel generalizing i w with
  | zero =>
    have hlimit : limit ≤ w.seen.size ∨ w.met.size ≤ i := by
      have := h.size_eq
      omega
    exact ⟨h, .refl w, hend hi hlimit⟩
  | succ fuel ih =>
    unfold OrbitWalk.run
    split
    · rename_i hnone
      exact ⟨h, .refl w, hend hi (.inr (Array.getElem?_eq_none_iff.mp hnone))⟩
    · rename_i plan key hget
      split
      · exact ⟨h, .refl w, hend hi (.inl ‹_›)⟩
      · obtain ⟨hw, hgrows, hknows⟩ := h.foldl_meet limit hg
          (h.keeps _ (Array.mem_of_getElem? hget)).1
        have hlt := (Array.getElem?_eq_some_iff.mp hget).1
        have hnext : (generators.foldl (OrbitWalk.meet encode limit plan) w).Processed encode limit
            generators (i + 1) := by
          intro x hx g hmem
          have htake : (generators.foldl (OrbitWalk.meet encode limit plan) w).met.toList.take (i + 1) =
              w.met.toList.take i ++ [(plan, key)] := by
            obtain ⟨rest, hrest⟩ := hgrows.met
            rw [← hrest, List.take_append_of_le_length (by simpa using hlt), List.take_add_one,
              Array.getElem?_toList, hget]
            rfl
          rw [htake] at hx
          rcases List.mem_append.mp hx with hx | hx
          · exact (hi x hx g hmem).grows hgrows
          · obtain rfl := List.mem_singleton.mp hx
            exact hknows g hmem
        obtain ⟨hw', hgrows', hall⟩ := ih hw hnext (by omega)
        exact ⟨hw', hgrows.trans hgrows', hall⟩

end OrbitWalk

namespace SymmetryGroup

/-- The group of permutations of the operators that the generators make. -/
def operatorGroup (t : Task) (g : SymmetryGroup) : Subgroup (Equiv.Perm (Fin t.operators.size)) :=
  generatedGroup t.operators.size (g.generators.toList.map (·.operators))

/-- The images of a plan under the group. -/
def planOrbit (t : Task) (g : SymmetryGroup) (plan : Plan) : Set Plan :=
  {image | ∃ σ ∈ g.operatorGroup t, permutePlan σ plan = image}

section Orbit

variable {t : Task} {policy : SymmetryPolicy} {fixInitial : Bool} {gen : Generator} {plan image : Plan}

/-- Every generator of a computed group is a relabelling of the task. -/
theorem ofTask_relabelling (h : gen ∈ (ofTask t policy fixInitial).generators.toList) :
    ∃ r : Relabelling t, r.Keeps fixInitial ∧ r.generator = gen := by
  simp only [ofTask, List.mem_filter, List.mem_map] at h
  obtain ⟨⟨vertices, hvertices, rfl⟩, -⟩ := h
  have haut := ColoredGraph.findGenerators_automorphism hvertices
  refine ⟨_, (Generator.ofVertices_symmetry haut).keeps_relabelling, ?_⟩
  rw [← Relabelling.ofVertices_vertices, Task.vertices_relabelling haut]

variable {g : SymmetryGroup} (hg : ∀ gen ∈ g.generators.toList, ∃ σ : Equiv.Perm (Fin t.operators.size),
  vertexMap σ = gen.operators) (hplan : ∀ op ∈ plan, op < t.operators.size)

theorem self_mem_planOrbit (hplan : ∀ op ∈ plan, op < t.operators.size) : plan ∈ g.planOrbit t plan :=
  ⟨1, one_mem _, permutePlan_one hplan⟩

theorem finite_planOrbit (t : Task) (g : SymmetryGroup) (plan : Plan) : (g.planOrbit t plan).Finite :=
  (Set.toFinite {σ | σ ∈ g.operatorGroup t}).image (permutePlan · plan)

include hplan in
theorem lt_of_mem_planOrbit (h : image ∈ g.planOrbit t plan) : ∀ op ∈ image, op < t.operators.size := by
  obtain ⟨σ, -, rfl⟩ := h
  exact permutePlan_lt hplan

include hg hplan in
theorem mapPlan_mem_planOrbit (hgen : gen ∈ g.generators.toList) (h : image ∈ g.planOrbit t plan) :
    gen.mapPlan image ∈ g.planOrbit t plan := by
  obtain ⟨σ, hσ, rfl⟩ := h
  obtain ⟨τ, hτ⟩ := hg gen hgen
  have hmem : τ ∈ g.operatorGroup t := mem_generatedGroup (hτ ▸ List.mem_map_of_mem hgen)
  refine ⟨τ * σ, mul_mem hmem hσ, ?_⟩
  rw [permutePlan_mul hplan, permutePlan, hτ]
  rfl

include hplan in
/-- What the generators keep holds of the whole orbit: in a finite group no inverses are needed. -/
theorem planOrbit_induction {p : Plan → Prop} (hstart : p plan)
    (hstep : ∀ gen ∈ g.generators.toList, ∀ image ∈ g.planOrbit t plan, p image → p (gen.mapPlan image))
    (h : image ∈ g.planOrbit t plan) : p image := by
  obtain ⟨σ, hσ, rfl⟩ := h
  have hclosure := Subgroup.closure_toSubmonoid_of_finite
    (s := {σ : Equiv.Perm (Fin t.operators.size) | vertexMap σ ∈ g.generators.toList.map (·.operators)})
  have hσ' : σ ∈ (g.operatorGroup t).toSubmonoid := hσ
  rw [operatorGroup, generatedGroup, hclosure] at hσ'
  induction hσ' using Submonoid.closure_induction_left with
  | one => rwa [permutePlan_one hplan]
  | mul_left τ hτ σ hmem ih =>
    have hσ : σ ∈ g.operatorGroup t := by
      rw [← hclosure] at hmem
      exact hmem
    obtain ⟨gen, hgen, heq⟩ := List.mem_map.mp hτ
    have himage := hstep gen hgen _ ⟨σ, hσ, rfl⟩ (ih hσ)
    rw [permutePlan_mul hplan, permutePlan, ← heq]
    exact himage

include hplan in
/-- All images of a plan have the same orbit. -/
theorem planOrbit_eq (h : image ∈ g.planOrbit t plan) : g.planOrbit t image = g.planOrbit t plan := by
  obtain ⟨σ, hσ, rfl⟩ := h
  ext other
  constructor
  · rintro ⟨τ, hτ, rfl⟩
    exact ⟨τ * σ, mul_mem hτ hσ, permutePlan_mul hplan⟩
  · rintro ⟨τ, hτ, rfl⟩
    refine ⟨τ * σ⁻¹, mul_mem hτ (inv_mem hσ), ?_⟩
    rw [← permutePlan_mul hplan, inv_mul_cancel_right]

theorem mapPlan_eq_self (hgen : ∃ σ : Equiv.Perm (Fin t.operators.size), vertexMap σ = gen.operators)
    (hmoves : ¬gen.movesOperators = true) (hplan : ∀ op ∈ plan, op < t.operators.size) :
    gen.mapPlan plan = plan := by
  obtain ⟨σ, hσ⟩ := hgen
  have hrange : gen.operators = Array.range t.operators.size := by
    rw [Generator.movesOperators, ← hσ, size_vertexMap] at hmoves
    rw [← hσ]
    simpa using hmoves
  refine (List.map_congr_left fun op hop => ?_).trans (List.map_id plan)
  simp [Generator.mapOperator, hrange, hplan op hop]

/-- The images come from the walk, also if no generator moves an operator. -/
theorem images_eq (g : SymmetryGroup) (encode : Plan → List Nat) (plan : Plan) :
    g.images encode plan = (OrbitWalk.run encode g.orbitLimit (g.generators.toList.filter (·.movesOperators))
      g.orbitLimit 0 (.start encode plan)).met.toList.drop 1 := by
  have hnil : ∀ fuel i w, OrbitWalk.run encode g.orbitLimit [] fuel i w = w := by
    intro fuel
    induction fuel with
    | zero => exact fun _ _ => rfl
    | succ fuel ih =>
      intro i w
      unfold OrbitWalk.run
      split
      · rfl
      · split
        · rfl
        · exact ih _ _
  simp only [images]
  split
  · rename_i hempty
    rw [List.isEmpty_iff.mp hempty, hnil]
    rfl
  · rfl

/-- The smallest of a key and the keys of some images. -/
theorem isLeast_foldl_keys (xs : List (Plan × List Nat)) (best : List Nat) :
    IsLeast {k | k = best ∨ ∃ x ∈ xs, x.2 = k}
      (xs.foldl (fun best (_, key) => if key < best then key else best) best) := by
  induction xs generalizing best with
  | nil => exact ⟨.inl rfl, fun k hk => (hk.resolve_right (by simp)).ge⟩
  | cons x xs ih =>
    rw [List.foldl_cons]
    have hleast : IsLeast {k | k = best ∨ k = x.2} (if x.2 < best then x.2 else best) := by
      split
      · exact ⟨.inr rfl, fun k hk => hk.elim (fun h => h ▸ le_of_lt ‹_›) fun h => h.ge⟩
      · exact ⟨.inl rfl, fun k hk => hk.elim (fun h => h.ge) fun h => h ▸ le_of_not_gt ‹_›⟩
    obtain ⟨hmem, hle⟩ := ih (if x.2 < best then x.2 else best)
    refine ⟨?_, fun k hk => ?_⟩
    · rcases hmem with hmem | ⟨y, hy, heq⟩
      · rcases hmem ▸ hleast.1 with h | h
        · exact .inl h
        · exact .inr ⟨x, List.mem_cons_self, h.symm⟩
      · exact .inr ⟨y, List.mem_cons_of_mem _ hy, heq⟩
    · rcases hk with hk | ⟨y, hy, hk⟩
      · exact (hle (.inl rfl)).trans (hleast.2 (.inl hk))
      · rcases List.mem_cons.mp hy with rfl | hy
        · exact (hle (.inl rfl)).trans (hleast.2 (.inr hk.symm))
        · exact hle (.inr ⟨y, hy, hk⟩)

/-- The key that is found is the least one met. -/
theorem planKey_isLeast_met (g : SymmetryGroup) (encode : Plan → List Nat) (plan : Plan) :
    IsLeast {k | k = encode plan ∨ ∃ x ∈ g.images encode plan, x.2 = k} (g.planKey encode plan) :=
  isLeast_foldl_keys _ _

variable {encode : Plan → List Nat}

include hg hplan in
/-- The images of a plan are what a walk over its orbit meets after the plan itself. -/
theorem exists_walk (encode : Plan → List Nat) : ∃ w : OrbitWalk,
    w.Recorded encode (· ∈ g.planOrbit t plan) ∧
      w.met.toList = (plan, encode plan) :: g.images encode plan ∧
      ∀ x ∈ w.met, ∀ gen ∈ g.generators.toList.filter (·.movesOperators),
        w.Knows encode g.orbitLimit (gen.mapPlan x.1) := by
  have hgens : ∀ gen ∈ g.generators.toList.filter (·.movesOperators), ∀ image,
      image ∈ g.planOrbit t plan → gen.mapPlan image ∈ g.planOrbit t plan :=
    fun gen hgen _ himage => mapPlan_mem_planOrbit hg hplan (List.mem_filter.mp hgen).1 himage
  have hstart : (OrbitWalk.start encode plan).Recorded encode (· ∈ g.planOrbit t plan) :=
    OrbitWalk.start_recorded (self_mem_planOrbit hplan)
  have hprocessed : (OrbitWalk.start encode plan).Processed encode g.orbitLimit
      (g.generators.toList.filter (·.movesOperators)) 0 := nofun
  obtain ⟨hrecorded, hgrows, hknows⟩ := hstart.run hgens hprocessed (Nat.le_refl _)
  refine ⟨_, hrecorded, ?_, hknows⟩
  obtain ⟨rest, hrest⟩ := hgrows.met
  rw [images_eq, ← hrest]
  rfl

include hg hplan in
/-- A walk that ended with room left has met the keys of the whole orbit, if plans of equal keys have images
of equal keys. -/
theorem exists_met_of_room {w : OrbitWalk} (hrecorded : w.Recorded encode (· ∈ g.planOrbit t plan))
    (hstart : ∃ x ∈ w.met, x.2 = encode plan)
    (hknows : ∀ x ∈ w.met, ∀ gen ∈ g.generators.toList.filter (·.movesOperators),
      w.Knows encode g.orbitLimit (gen.mapPlan x.1))
    (hroom : ¬g.orbitLimit ≤ w.seen.size)
    (hcompatible : ∀ gen ∈ g.generators.toList, ∀ x ∈ g.planOrbit t plan, ∀ y ∈ g.planOrbit t plan,
      encode x = encode y → encode (gen.mapPlan x) = encode (gen.mapPlan y))
    (himage : image ∈ g.planOrbit t plan) : ∃ x ∈ w.met, x.2 = encode image := by
  refine planOrbit_induction (p := fun image => ∃ x ∈ w.met, x.2 = encode image) hplan hstart
    (fun gen hgen image himage ⟨x, hx, hkey⟩ => ?_) himage
  obtain ⟨hmem, hkey'⟩ := hrecorded.keeps x hx
  by_cases hmoves : gen.movesOperators = true
  · have hknown := (hknows x hx gen (List.mem_filter.mpr ⟨hgen, hmoves⟩)).resolve_left hroom
    obtain ⟨y, hy, heq⟩ := (hrecorded.mem_seen _).mp hknown
    exact ⟨y, hy, heq.trans (hcompatible gen hgen _ hmem _ himage (hkey'.symm.trans hkey))⟩
  · rw [mapPlan_eq_self (hg gen hgen) hmoves (lt_of_mem_planOrbit hplan himage)]
    exact ⟨x, hx, hkey⟩

include hg hplan in
/-- The keys met are those of the whole orbit, if there is room for all of them and plans of equal keys have
images of equal keys. -/
theorem keys_images_eq
    (hcompatible : ∀ gen ∈ g.generators.toList, ∀ x ∈ g.planOrbit t plan, ∀ y ∈ g.planOrbit t plan,
      encode x = encode y → encode (gen.mapPlan x) = encode (gen.mapPlan y))
    (hroom : (encode '' g.planOrbit t plan).ncard ≤ g.orbitLimit) :
    {k | k = encode plan ∨ ∃ x ∈ g.images encode plan, x.2 = k} = encode '' g.planOrbit t plan := by
  obtain ⟨w, hrecorded, hmet, hknows⟩ := exists_walk hg hplan encode
  have hkeys : {k | k = encode plan ∨ ∃ x ∈ g.images encode plan, x.2 = k} = {k | ∃ x ∈ w.met, x.2 = k} := by
    ext k
    simp only [Set.mem_ofPred_eq, ← Array.mem_toList_iff, hmet]
    simp [eq_comm]
  have hsub : {k | ∃ x ∈ w.met, x.2 = k} ⊆ encode '' g.planOrbit t plan := by
    rintro _ ⟨x, hx, rfl⟩
    obtain ⟨hmem, hkey⟩ := hrecorded.keeps x hx
    exact ⟨x.1, hmem, hkey.symm⟩
  rw [hkeys]
  by_cases hlimit : g.orbitLimit ≤ w.seen.size
  · -- as many keys are met as the orbit can have
    refine Set.eq_of_subset_of_ncard_le hsub ?_ ((finite_planOrbit t g plan).image encode)
    rw [hrecorded.ncard_keys]
    exact hroom.trans hlimit
  · refine Set.Subset.antisymm hsub ?_
    rintro _ ⟨image, himage, rfl⟩
    have hstart : ∃ x ∈ w.met, x.2 = encode plan :=
      ⟨(plan, encode plan), Array.mem_toList_iff.mp (hmet ▸ List.mem_cons_self), rfl⟩
    exact exists_met_of_room hg hplan hrecorded hstart hknows hlimit hcompatible himage

include hg hplan in
/-- The key of a plan is the least one of its orbit, if there is room for all of them and plans of equal keys
have images of equal keys. -/
theorem planKey_isLeast
    (hcompatible : ∀ gen ∈ g.generators.toList, ∀ x ∈ g.planOrbit t plan, ∀ y ∈ g.planOrbit t plan,
      encode x = encode y → encode (gen.mapPlan x) = encode (gen.mapPlan y))
    (hroom : (encode '' g.planOrbit t plan).ncard ≤ g.orbitLimit) :
    IsLeast (encode '' g.planOrbit t plan) (g.planKey encode plan) := by
  rw [← keys_images_eq hg hplan hcompatible hroom]
  exact planKey_isLeast_met g encode plan

end Orbit

section Preserving

variable {t : Task} {policy : SymmetryPolicy} {fixInitial : Bool} {plan : Plan} {marked : Array Bool}

theorem ofTask_operators {gen : Generator} (h : gen ∈ (ofTask t policy fixInitial).generators.toList) :
    ∃ σ : Equiv.Perm (Fin t.operators.size), vertexMap σ = gen.operators := by
  obtain ⟨r, -, rfl⟩ := ofTask_relabelling h
  exact ⟨r.operators, rfl⟩

/-- A generator that keeps the marks takes plans of equal keys to plans of equal keys. -/
theorem encode_mapPlan {gen : Generator} {x y : Plan}
    (hmarks : ∀ op < t.operators.size, marked.getD (gen.mapOperator op) false = marked.getD op false)
    (hgen : ∀ op < t.operators.size, gen.mapOperator op < t.operators.size)
    (hx : ∀ op ∈ x, op < t.operators.size) (hy : ∀ op ∈ y, op < t.operators.size)
    (heq : (PlanKey.preserving marked).encode x = (PlanKey.preserving marked).encode y) :
    (PlanKey.preserving marked).encode (gen.mapPlan x) =
      (PlanKey.preserving marked).encode (gen.mapPlan y) := by
  have hlt : ∀ {x : Plan}, (∀ op ∈ x, op < t.operators.size) → ∀ op ∈ x, op < PlanKey.separator :=
    fun hx op hop => Nat.lt_of_lt_of_le (hx op hop) t.operators_size_le
  have hfilter : ∀ (keep : Bool → Bool) {x : Plan}, (∀ op ∈ x, op < t.operators.size) →
      (gen.mapPlan x).filter (fun op => keep (marked.getD op false)) =
        gen.mapPlan (x.filter fun op => keep (marked.getD op false)) := by
    intro keep x hx
    rw [Generator.mapPlan, Generator.mapPlan, List.filter_map]
    exact congrArg _ (List.filter_congr fun op hop => congrArg keep (hmarks op (hx op hop)))
  obtain ⟨hmarked, hothers⟩ := (PlanKey.encode_preserving_eq_iff (hlt hx)).mp heq
  refine (PlanKey.encode_preserving_eq_iff (hlt (List.forall_mem_map.mpr fun op hop =>
    hgen op (hx op hop)))).mpr ⟨?_, ?_⟩
  · exact (hfilter id hx).trans ((congrArg gen.mapPlan hmarked).trans (hfilter id hy).symm)
  · exact (List.Perm.of_eq (hfilter (!·) hx)).trans
      ((hothers.map gen.mapOperator).trans (List.Perm.of_eq (hfilter (!·) hy)).symm)

/-- Where every generator takes marked operators to marked ones, the key of a plan is the least key of its orbit
and all its images have that key. -/
theorem planKey_preserving (t : Task) (policy : SymmetryPolicy) (fixInitial : Bool) (marked : Array Bool)
    (plan : Plan) (hplan : ∀ op ∈ plan, op < t.operators.size)
    (hroom : ((ofTask t policy fixInitial).planOrbit t plan).ncard ≤ policy.orbitSize)
    (hmarks : ∀ gen ∈ (ofTask t policy fixInitial).generators.toList, ∀ op < t.operators.size,
      marked.getD (gen.mapOperator op) false = marked.getD op false) :
    IsLeast ((PlanKey.preserving marked).encode '' (ofTask t policy fixInitial).planOrbit t plan)
      ((ofTask t policy fixInitial).planKey (PlanKey.preserving marked).encode plan) ∧
    ∀ image ∈ (ofTask t policy fixInitial).planOrbit t plan,
      (ofTask t policy fixInitial).planKey (PlanKey.preserving marked).encode image =
        (ofTask t policy fixInitial).planKey (PlanKey.preserving marked).encode plan := by
  have hleast : ∀ plan : Plan, (∀ op ∈ plan, op < t.operators.size) →
      ((ofTask t policy fixInitial).planOrbit t plan).ncard ≤ policy.orbitSize →
      IsLeast ((PlanKey.preserving marked).encode '' (ofTask t policy fixInitial).planOrbit t plan)
        ((ofTask t policy fixInitial).planKey (PlanKey.preserving marked).encode plan) := by
    intro plan hplan hroom
    refine planKey_isLeast (fun _ => ofTask_operators) hplan (fun gen hgen x hx y hy => ?_)
      ((Set.ncard_image_le (finite_planOrbit _ _ _)).trans hroom)
    obtain ⟨r, hr, rfl⟩ := ofTask_relabelling hgen
    exact encode_mapPlan (hmarks _ hgen) (fun _ => hr.symmetry.operator_lt) (lt_of_mem_planOrbit hplan hx)
      (lt_of_mem_planOrbit hplan hy)
  refine ⟨hleast plan hplan hroom, fun image himage => ?_⟩
  have horbit := planOrbit_eq hplan himage
  have himage := hleast image (lt_of_mem_planOrbit hplan himage) (horbit ▸ hroom)
  rw [horbit] at himage
  exact himage.unique (hleast plan hplan hroom)

/-- A plan has no more images than the operators have permutations. -/
theorem ncard_planOrbit_le (t : Task) (g : SymmetryGroup) (plan : Plan) :
    (g.planOrbit t plan).ncard ≤ t.operators.size.factorial := by
  refine (Set.ncard_image_le (s := {σ | σ ∈ g.operatorGroup t}) (f := (permutePlan · plan))
    (Set.toFinite _)).trans ((Set.ncard_le_card _).trans ?_)
  rw [Nat.card_perm, Nat.card_fin]

/-- Three switches that are alike. -/
def threeSwitches : Task where
  vars := #[⟨"a", ["off", "on"]⟩, ⟨"b", ["off", "on"]⟩, ⟨"c", ["off", "on"]⟩]
  operators := #[⟨"flip a", 1, [], [⟨0, 1⟩]⟩, ⟨"flip b", 1, [], [⟨1, 1⟩]⟩, ⟨"flip c", 1, [], [⟨2, 1⟩]⟩]
  initial := #[0, 0, 0]
  goal := [⟨0, 1⟩, ⟨1, 1⟩, ⟨2, 1⟩]
  normalized := by decide +kernel
  faultless := by decide +kernel

/-- The last two switches may be exchanged, and the first two. -/
theorem ofTask_threeSwitches : ofTask threeSwitches {} true =
    { generators := #[⟨#[0, 2, 1], #[#[0, 1], #[0, 1], #[0, 1]], #[0, 2, 1], #[0, 2, 1]⟩,
        ⟨#[1, 0, 2], #[#[0, 1], #[0, 1], #[0, 1]], #[1, 0, 2], #[1, 0, 2]⟩]
      fixesInitial := true
      complete := true
      orbitLimit := 1000
      stateCount := 8 } := by
  decide +kernel

/-- All three operators are marked. -/
theorem planKey_threeSwitches :
    IsLeast ((PlanKey.preserving #[true, true, true]).encode ''
        (ofTask threeSwitches {} true).planOrbit threeSwitches [2, 1, 0]) [0, 1, 2, PlanKey.separator] := by
  have hroom := ncard_planOrbit_le threeSwitches (ofTask threeSwitches {} true) [2, 1, 0]
  have hkey : (ofTask threeSwitches {} true).planKey (PlanKey.preserving #[true, true, true]).encode
      [2, 1, 0] = [0, 1, 2, PlanKey.separator] := by
    rw [ofTask_threeSwitches]
    decide +kernel
  have hmarks : ∀ gen ∈ (ofTask threeSwitches {} true).generators.toList,
      ∀ op < threeSwitches.operators.size, #[true, true, true].getD (gen.mapOperator op) false =
        #[true, true, true].getD op false := by
    rw [ofTask_threeSwitches]
    decide
  rw [← hkey]
  exact (planKey_preserving threeSwitches {} true #[true, true, true] [2, 1, 0] (by decide)
    (hroom.trans (by decide)) hmarks).1

/-- With the operators for the outer switches marked, the walk passes over an image that differs from the plan in
the order of the others only, and misses the least key beyond it. -/
theorem planKey_not_least : ∃ pattern, Pattern.wholeName? "flip [ac]" = some pattern ∧
    ((ofTask threeSwitches {} true).planOrbit threeSwitches [2, 1, 0]).ncard ≤
      (ofTask threeSwitches {} true).orbitLimit ∧
    ∃ image ∈ (ofTask threeSwitches {} true).planOrbit threeSwitches [2, 1, 0],
      (PlanKey.ofTask threeSwitches false (some pattern)).encode image <
        (ofTask threeSwitches {} true).planKey
          (PlanKey.ofTask threeSwitches false (some pattern)).encode [2, 1, 0] := by
  obtain ⟨pattern, hpattern, hkey⟩ : ∃ pattern, Pattern.wholeName? "flip [ac]" = some pattern ∧
      PlanKey.ofTask threeSwitches false (some pattern) = .preserving #[true, false, true] := by
    have hread : (Pattern.wholeName? "flip [ac]").map (fun p =>
        PlanKey.ofTask threeSwitches false (some p)) = some (.preserving #[true, false, true]) := by
      decide +kernel
    exact Option.map_eq_some_iff.mp hread
  have hroom := ncard_planOrbit_le threeSwitches (ofTask threeSwitches {} true) [2, 1, 0]
  refine ⟨pattern, hpattern, hroom.trans (by decide), [0, 1, 2], ?_, ?_⟩
  · have hgen : ∀ i < 2, (ofTask threeSwitches {} true).generator i ∈
        (ofTask threeSwitches {} true).generators.toList := by
      rw [ofTask_threeSwitches]
      decide
    have hstep : ∀ i < 2, ∀ image ∈ (ofTask threeSwitches {} true).planOrbit threeSwitches [2, 1, 0],
        ((ofTask threeSwitches {} true).generator i).mapPlan image ∈
          (ofTask threeSwitches {} true).planOrbit threeSwitches [2, 1, 0] :=
      fun i hi image => mapPlan_mem_planOrbit (fun _ => ofTask_operators) (by decide) (hgen i hi)
    have hword : ((ofTask threeSwitches {} true).generator 0).mapPlan
        (((ofTask threeSwitches {} true).generator 1).mapPlan
          (((ofTask threeSwitches {} true).generator 0).mapPlan [2, 1, 0])) = [0, 1, 2] := by
      rw [ofTask_threeSwitches]
      decide
    rw [← hword]
    exact hstep 0 (by decide) _ (hstep 1 (by decide) _ (hstep 0 (by decide) _
      (self_mem_planOrbit (by decide))))
  · rw [hkey, ofTask_threeSwitches]
    decide +kernel

end Preserving

end SymmetryGroup

end RankedPlans
