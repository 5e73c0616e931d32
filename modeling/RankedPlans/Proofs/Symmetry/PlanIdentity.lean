import RankedPlans.Proofs.Symmetry.OrbitMinimum

/-! Which plans have one key under a group. Where the order of all operators counts, or that of none, renaming the
operators respects which plans count as the same, so the keys of an orbit are the same from whichever member of it,
and their least one tells the orbits apart. -/

namespace RankedPlans

variable {t : Task} {key : PlanKey} {plan other : Plan}

theorem PlanKey.Alike.permutePlan (h : key.Alike plan other) (hkey : key = .ordered ∨ key = .unordered) {n : Nat}
    (σ : Equiv.Perm (Fin n)) : key.Alike (permutePlan σ plan) (permutePlan σ other) :=
  h.map hkey _

theorem permutePlan_inv_self {n : Nat} (σ : Equiv.Perm (Fin n)) (hplan : ∀ op ∈ plan, op < n) :
    permutePlan σ⁻¹ (permutePlan σ plan) = plan := by
  rw [← permutePlan_mul hplan, inv_mul_cancel, permutePlan_one hplan]

namespace SymmetryGroup

variable {g : SymmetryGroup}

/-- Plans that count as the same have the same keys in their orbits. -/
theorem keys_planOrbit_eq (hkey : key = .ordered ∨ key = .unordered) (hplan : ∀ op ∈ plan, op < t.operators.size)
    (h : key.Alike plan other) : key.encode '' g.planOrbit t plan = key.encode '' g.planOrbit t other := by
  have himage : ∀ σ : Equiv.Perm (Fin t.operators.size),
      key.encode (permutePlan σ plan) = key.encode (permutePlan σ other) := fun σ =>
    (PlanKey.encode_eq_iff (permutePlan_lt hplan)).mpr (h.permutePlan hkey σ)
  ext k
  constructor
  · rintro ⟨_, ⟨σ, hσ, rfl⟩, rfl⟩
    exact ⟨_, ⟨σ, hσ, rfl⟩, (himage σ).symm⟩
  · rintro ⟨_, ⟨σ, hσ, rfl⟩, rfl⟩
    exact ⟨_, ⟨σ, hσ, rfl⟩, himage σ⟩

/-- If two orbits share a key, the one plan comes from the other. -/
theorem exists_alike_of_encode_eq (hkey : key = .ordered ∨ key = .unordered)
    (hplan : ∀ op ∈ plan, op < t.operators.size) (hother : ∀ op ∈ other, op < t.operators.size) {k : List Nat}
    (h : k ∈ key.encode '' g.planOrbit t plan) (h' : k ∈ key.encode '' g.planOrbit t other) :
    ∃ σ ∈ g.operatorGroup t, key.Alike (permutePlan σ plan) other := by
  obtain ⟨_, ⟨σ, hσ, rfl⟩, rfl⟩ := h
  obtain ⟨_, ⟨τ, hτ, rfl⟩, heq⟩ := h'
  have halike := (PlanKey.encode_eq_iff (permutePlan_lt hplan)).mp heq.symm
  refine ⟨τ⁻¹ * σ, mul_mem (inv_mem hτ) hσ, ?_⟩
  rw [permutePlan_mul hplan]
  exact permutePlan_inv_self τ hother ▸ halike.permutePlan hkey τ⁻¹

theorem planKey_isLeast_of_room {policy : SymmetryPolicy} {fixInitial : Bool}
    (hkey : key = .ordered ∨ key = .unordered) (hplan : ∀ op ∈ plan, op < t.operators.size)
    (hroom : (key.encode '' (ofTask t policy fixInitial).planOrbit t plan).ncard ≤ policy.orbitSize) :
    IsLeast (key.encode '' (ofTask t policy fixInitial).planOrbit t plan)
      ((ofTask t policy fixInitial).planKey key.encode plan) := by
  refine planKey_isLeast (fun _ => ofTask_operators) hplan (fun gen hgen x hx y _ heq => ?_) hroom
  have hlt := lt_of_mem_planOrbit hplan (mapPlan_mem_planOrbit (fun _ => ofTask_operators) hplan hgen hx)
  have halike := (PlanKey.encode_eq_iff (lt_of_mem_planOrbit hplan hx)).mp heq
  exact (PlanKey.encode_eq_iff hlt).mpr (halike.map hkey _)

/-- Where the order of all operators counts, or that of none, and the limit leaves room for the keys of an orbit: the
key of a plan is the least of them, and two plans have one key exactly if an element of the group takes the one to a
plan that counts as the other. -/
theorem planKey_complete (t : Task) (policy : SymmetryPolicy) (fixInitial : Bool) (key : PlanKey)
    (hkey : key = .ordered ∨ key = .unordered) (plan : Plan) (hplan : ∀ op ∈ plan, op < t.operators.size)
    (hroom : (key.encode '' (ofTask t policy fixInitial).planOrbit t plan).ncard ≤ policy.orbitSize) :
    IsLeast (key.encode '' (ofTask t policy fixInitial).planOrbit t plan)
      ((ofTask t policy fixInitial).planKey key.encode plan) ∧
    ∀ other : Plan, (∀ op ∈ other, op < t.operators.size) →
      (key.encode '' (ofTask t policy fixInitial).planOrbit t other).ncard ≤ policy.orbitSize →
      ((ofTask t policy fixInitial).planKey key.encode plan =
          (ofTask t policy fixInitial).planKey key.encode other ↔
        ∃ σ ∈ (ofTask t policy fixInitial).operatorGroup t, key.Alike (permutePlan σ plan) other) := by
  have hleast := planKey_isLeast_of_room hkey hplan hroom
  refine ⟨hleast, fun other hother hroom' => ?_⟩
  have hleast' := planKey_isLeast_of_room hkey hother hroom'
  constructor
  · intro heq
    rw [heq] at hleast
    exact exists_alike_of_encode_eq hkey hplan hother hleast.1 hleast'.1
  · rintro ⟨σ, hσ, halike⟩
    have himage := planOrbit_eq hplan ⟨σ, hσ, rfl⟩
    have hkeys := keys_planOrbit_eq (g := ofTask t policy fixInitial) hkey (permutePlan_lt hplan) halike
    rw [himage] at hkeys
    rw [hkeys] at hleast
    exact hleast.unique hleast'

/-- The three switches may be flipped in any order, but not one of them twice in the place of another. -/
theorem planKey_complete_threeSwitches :
    (∃ σ ∈ (ofTask threeSwitches {} true).operatorGroup threeSwitches,
      PlanKey.ordered.Alike (permutePlan σ [2, 0]) [1, 2]) ∧
    ¬∃ σ ∈ (ofTask threeSwitches {} true).operatorGroup threeSwitches,
      PlanKey.unordered.Alike (permutePlan σ [2, 1, 0]) [1, 1, 2] := by
  have hroom : ∀ (key : PlanKey) (plan : Plan),
      (key.encode '' (ofTask threeSwitches {} true).planOrbit threeSwitches plan).ncard ≤ 1000 := fun key plan =>
    (Set.ncard_image_le (finite_planOrbit _ _ _)).trans
      ((ncard_planOrbit_le threeSwitches (ofTask threeSwitches {} true) plan).trans (by decide))
  have hequal : (ofTask threeSwitches {} true).planKey PlanKey.ordered.encode [2, 0] =
      (ofTask threeSwitches {} true).planKey PlanKey.ordered.encode [1, 2] := by
    rw [ofTask_threeSwitches]
    decide +kernel
  have hdifferent : (ofTask threeSwitches {} true).planKey PlanKey.unordered.encode [2, 1, 0] ≠
      (ofTask threeSwitches {} true).planKey PlanKey.unordered.encode [1, 1, 2] := by
    rw [ofTask_threeSwitches]
    decide +kernel
  obtain ⟨-, hsame⟩ := planKey_complete threeSwitches {} true .ordered (.inl rfl) [2, 0] (by decide) (hroom _ _)
  obtain ⟨-, hother⟩ :=
    planKey_complete threeSwitches {} true .unordered (.inr rfl) [2, 1, 0] (by decide) (hroom _ _)
  exact ⟨(hsame [1, 2] (by decide) (hroom _ _)).mp hequal,
    fun hmoved => hdifferent ((hother [1, 1, 2] (by decide) (hroom _ _)).mpr hmoved)⟩

end SymmetryGroup

end RankedPlans
