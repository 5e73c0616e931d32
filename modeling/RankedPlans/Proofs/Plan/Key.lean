import Mathlib.Data.List.Basic
import RankedPlans.Plan.Key
import RankedPlans.Proofs.Plan.Reordering
import RankedPlans.Proofs.Task.State

/-! What the key of a plan tells about the plan. The marked operators stand before the separator and the others
behind it; no operator of a task is the separator, so a key can be taken apart again, and it holds the operators of
its plan. -/

namespace RankedPlans.PlanKey

variable {plan other : Plan}

theorem sortOperators_perm (ops : List Nat) : (sortOperators ops).Perm ops :=
  sortBy_perm _ ops

theorem sortOperators_eq_iff {ops ops' : List Nat} :
    sortOperators ops = sortOperators ops' ↔ ops.Perm ops' := by
  constructor
  · intro h
    exact (sortOperators_perm ops).symm.trans (h ▸ sortOperators_perm ops')
  · exact sortBy_eq_of_perm (fun a b c hab hbc => by simp at hab hbc ⊢; omega)
      (fun a b => by simp; omega) fun a b hab hba => by simp at hab hba; omega

/-- A key holds the operators of its plan. -/
theorem encode_perm (key : PlanKey) : ∃ marks, ∀ plan, (key.encode plan).Perm (marks ++ plan) := by
  cases key with
  | ordered => exact ⟨[], fun plan => .refl _⟩
  | unordered => exact ⟨[], sortOperators_perm⟩
  | preserving marked =>
    refine ⟨[separator], fun plan => ?_⟩
    refine List.perm_middle.trans (.cons _ ?_)
    exact ((sortOperators_perm _).append_left _).trans (List.filter_append_perm _ plan)

theorem perm_of_encode_eq {key : PlanKey} (h : key.encode plan = key.encode other) :
    plan.Perm other := by
  obtain ⟨marks, hperm⟩ := key.encode_perm
  exact (List.perm_append_left_iff marks).mp ((hperm plan).symm.trans (h ▸ hperm other))

/-- Two plans have one key if they have the marked operators in the same order and equally many of each of
the others. -/
theorem encode_preserving_eq_iff {marked : Array Bool} (hplan : ∀ op ∈ plan, op < separator) :
    (preserving marked).encode plan = (preserving marked).encode other ↔
      plan.filter (marked.getD · false) = other.filter (marked.getD · false) ∧
        (plan.filter (!marked.getD · false)).Perm (other.filter (!marked.getD · false)) := by
  have hmarked : separator ∉ plan.filter (marked.getD · false) := fun h =>
    Nat.lt_irrefl _ (hplan _ (List.mem_filter.mp h).1)
  have hothers : separator ∉ sortOperators (plan.filter (!marked.getD · false)) := fun h =>
    Nat.lt_irrefl _ (hplan _ (List.mem_filter.mp ((sortOperators_perm _).mem_iff.mp h)).1)
  rw [← sortOperators_eq_iff, encode, encode, List.append_cons_inj_of_notMem hmarked hothers]
  exact and_congr_right fun _ => and_iff_right rfl

/-- Which plans count as the same: those with the operators in one order, with equally many of each operator, or with
the marked operators in one order and equally many of each of the others. -/
def Alike : PlanKey → Plan → Plan → Prop
  | ordered, plan, other => plan = other
  | unordered, plan, other => plan.Perm other
  | preserving marked, plan, other =>
    plan.filter (marked.getD · false) = other.filter (marked.getD · false) ∧
      (plan.filter (!marked.getD · false)).Perm (other.filter (!marked.getD · false))

/-- A key tells whether plans count as the same. -/
theorem encode_eq_iff_alike {key : PlanKey} (hplan : ∀ op ∈ plan, op < separator) :
    key.encode plan = key.encode other ↔ key.Alike plan other := by
  cases key with
  | ordered => exact Iff.rfl
  | unordered => exact sortOperators_eq_iff
  | preserving marked => exact encode_preserving_eq_iff hplan

theorem encode_eq_iff {t : Task} {key : PlanKey} (hplan : ∀ op ∈ plan, op < t.operators.size) :
    key.encode plan = key.encode other ↔ key.Alike plan other :=
  encode_eq_iff_alike fun op hop => Nat.lt_of_lt_of_le (hplan op hop) t.operators_size_le

/-- Two sequences of operators have one key exactly if they count as the same. Then they are equally long, and their
operators cost the same together; so they cost the same if both are plans. -/
theorem encode_exact (t : Task) (key : PlanKey) (plan other : Plan) (hplan : ∀ op ∈ plan, op < t.operators.size) :
    (key.encode plan = key.encode other ↔ key.Alike plan other) ∧
    (key.encode plan = key.encode other → plan.length = other.length ∧
      (plan.map fun op => (t.operator op).cost).sum = (other.map fun op => (t.operator op).cost).sum ∧
      ∀ cost cost', t.planCost? plan = some cost → t.planCost? other = some cost' → cost = cost') := by
  refine ⟨encode_eq_iff hplan, fun heq => ?_⟩
  have hperm : plan.Perm other := perm_of_encode_eq heq
  exact ⟨hperm.length_eq, (hperm.map _).sum_eq,
    fun _ _ hcost hcost' => Task.planCost?_eq_of_perm hcost' hcost hperm⟩

/-- Where only the lighting of the lamp is marked, the switches may be flipped in any order, but not once more. -/
theorem encode_exact_lampOfTwo : (preserving #[false, false, true]).Alike [0, 1, 2] [1, 0, 2] ∧
    ¬(preserving #[false, false, true]).Alike [0, 1, 2] [0, 1, 2, 0] ∧
    (([0, 1, 2] : Plan).map fun op => (Task.lampOfTwo.operator op).cost).sum =
      (([1, 0, 2] : Plan).map fun op => (Task.lampOfTwo.operator op).cost).sum := by
  have hequal : (preserving #[false, false, true]).encode [0, 1, 2] =
      (preserving #[false, false, true]).encode [1, 0, 2] := by decide +kernel
  have hdifferent : (preserving #[false, false, true]).encode [0, 1, 2] ≠
      (preserving #[false, false, true]).encode [0, 1, 2, 0] := by decide +kernel
  have hexact := fun other =>
    encode_exact Task.lampOfTwo (preserving #[false, false, true]) [0, 1, 2] other (by decide)
  exact ⟨(hexact [1, 0, 2]).1.mp hequal, fun halike => hdifferent ((hexact [0, 1, 2, 0]).1.mpr halike),
    ((hexact [1, 0, 2]).2 hequal).2.1⟩

/-- Where no operator is marked or all are, plans that count as the same do so when their operators are renamed. -/
theorem Alike.map {key : PlanKey} (h : key.Alike plan other) (hkey : key = ordered ∨ key = unordered)
    (f : Nat → Nat) : key.Alike (plan.map f) (other.map f) := by
  rcases hkey with rfl | rfl
  · exact congrArg (List.map f) h
  · exact List.Perm.map f h

end RankedPlans.PlanKey
