import RankedPlans.Proofs.Symmetry.Classes
import RankedPlans.Proofs.Symmetry.Ranks

/-! Sequences of calls on classes of numbers. The classes are those of the equivalence that the merged pairs generate,
whatever was looked up in between, and ranks stay so small that they fit into a byte. -/

namespace RankedPlans

/-- A call on classes of numbers. -/
inductive ClassCall where
  | union (a b : Nat)
  | find (x : Nat)
  | same (a b : Nat)
  | classes
deriving DecidableEq

namespace ClassCall

/-- The numbers that a call names are below `n`. -/
def InRange (n : Nat) : ClassCall → Prop
  | union a b => a < n ∧ b < n
  | find x => x < n
  | same a b => a < n ∧ b < n
  | classes => True

instance decidableInRange (n : Nat) : (call : ClassCall) → Decidable (call.InRange n)
  | union a b => inferInstanceAs (Decidable (a < n ∧ b < n))
  | find x => inferInstanceAs (Decidable (x < n))
  | same a b => inferInstanceAs (Decidable (a < n ∧ b < n))
  | classes => inferInstanceAs (Decidable True)

/-- Two numbers are connected by the pairs that some calls merge. -/
def Connected (calls : List ClassCall) : Nat → Nat → Prop :=
  Relation.EqvGen fun x y => union x y ∈ calls

end ClassCall

open ClassCall

namespace UnionFind

/-- What a call leaves. -/
def perform (u : UnionFind) : ClassCall → UnionFind
  | .union a b => (u.union a b).1
  | .find x => (u.find x).1
  | .same a b => (u.same a b).1
  | .classes => u.classes.1

/-- The classes of the numbers below `n` after some calls in turn. -/
def after (n : Nat) (calls : List ClassCall) : UnionFind :=
  calls.foldl perform (ofSize n)

variable {u : UnionFind} {n : Nat} {call : ClassCall} {calls : List ClassCall}

/-- A call merges two numbers, or it looks numbers up. -/
theorem Valid.perform_cases (h : u.Valid n) (hcall : call.InRange n) :
    (∃ a b, call = .union a b ∧ a < n ∧ b < n) ∨ (∀ a b, call ≠ .union a b) ∧ u.Kept (u.perform call) n := by
  cases call with
  | union a b => exact .inl ⟨a, b, rfl, hcall⟩
  | find x => exact .inr ⟨by simp, (h.find hcall).1⟩
  | same a b => exact .inr ⟨by simp, (h.same hcall.1 hcall.2).1⟩
  | classes => exact .inr ⟨by simp, h.roots.1⟩

/-- The classes that calls have led to, and the size of each. -/
structure Reached (u : UnionFind) (n : Nat) (calls : List ClassCall) : Prop where
  represents : u.Represents n fun x y => .union x y ∈ calls
  populous : u.Populous n

theorem Reached.perform (h : u.Reached n calls) (hcall : call.InRange n) :
    (u.perform call).Reached n (calls ++ [call]) := by
  have hvalid := h.represents.valid
  rcases hvalid.perform_cases hcall with ⟨a, b, rfl, ha, hb⟩ | ⟨hne, hkept⟩
  · refine ⟨(h.represents.union ha hb).congr fun x y => ?_, h.populous.union hvalid ha hb⟩
    rw [List.mem_append, List.mem_singleton, ClassCall.union.injEq]
  · refine ⟨(h.represents.kept hkept).congr fun x y => ?_, h.populous.kept hvalid hkept⟩
    rw [List.mem_append, List.mem_singleton]
    exact (or_iff_left fun heq => hne x y heq.symm).symm

theorem after_reached (hcalls : ∀ call ∈ calls, call.InRange n) : (after n calls).Reached n calls := by
  induction calls using List.reverseRecOn with
  | nil => exact ⟨(Represents.ofSize n).congr fun x y => by simp, .ofSize n⟩
  | append_singleton calls call ih =>
    obtain ⟨hcalls, hcall⟩ := List.forall_mem_append.mp hcalls
    rw [after, List.foldl_append]
    exact (ih hcalls).perform (hcall call List.mem_cons_self)

/-- After any calls every lookup comes to an end, and numbers have one root if they are connected. The answers to the
next call say what is connected and list the connected numbers; lookups change no class; and no rank exceeds the binary
logarithm of `n`, nor a byte where `n` is a machine word. -/
theorem connected_after_calls (hcalls : ∀ call ∈ calls, call.InRange n) :
    let u := after n calls
    (∀ x < n, u.Lookup x (u.find x).1 (u.find x).2) ∧
    (∀ x < n, ∀ y < n, (u.find x).2 = (u.find y).2 ↔ Connected calls x y) ∧
    (∀ a < n, ∀ b < n, (u.same a b).2 = true ↔ Connected calls a b) ∧
    (∀ a < n, ∀ b < n, (u.union a b).2 = true ↔ ¬Connected calls a b) ∧
    (∀ x y, u.Linked x y ↔ Connected calls x y) ∧
    (∀ a < n, ∀ x y, (u.find a).1.Linked x y ↔ u.Linked x y) ∧
    (∀ a < n, ∀ b < n, ∀ x y, (u.same a b).1.Linked x y ↔ u.Linked x y) ∧
    (∀ x, u.rank x ≤ n.log2 ∧ (n < 2 ^ 64 → u.rank x < 2 ^ 8)) ∧
    (∀ c, c ∈ u.classes.2 ↔ c.Pairwise (· < ·) ∧ 1 < c.length ∧
      ∃ x < n, ∀ y, y ∈ c ↔ y < n ∧ Connected calls x y) ∧
    (u.classes.2.map (·.headD 0)).Pairwise (· < ·) := by
  intro u
  obtain ⟨hrepresents, hpopulous⟩ : u.Reached n calls := after_reached hcalls
  have hvalid := hrepresents.valid
  have hlinked (x y : Nat) : u.Linked x y ↔ Connected calls x y := hrepresents.linked_iff x y
  refine ⟨fun x hx => (hvalid.find hx).2.2, fun x hx y hy => ?_, fun a ha b hb => ?_, fun a ha b hb => ?_, hlinked,
    fun a ha => (hvalid.find ha).1.linked_iff, fun a ha b hb => (hvalid.same ha hb).1.linked_iff, fun x => ?_,
    fun c => ?_, classes_ordered u⟩
  · rw [← hlinked, linked_iff_eq (hvalid.find hx).2.1 (hvalid.find hy).2.1]
  · rw [← hlinked]
    exact (hvalid.same ha hb).2
  · rw [← hlinked]
    exact (hvalid.union ha hb).2.1
  · have hle := hpopulous.rank_le_log2 hvalid x
    refine ⟨hle, fun hn => ?_⟩
    have hlog : n.log2 < 64 := by
      by_cases hzero : n = 0
      · rw [hzero]
        decide
      · exact (Nat.log2_lt hzero).mpr hn
    omega
  · rw [hvalid.mem_classes_iff]
    simp only [hlinked]

/-- Lookups between the merges of six numbers. -/
def mixedCalls : List ClassCall :=
  [.union 0 3, .find 3, .union 3 5, .classes, .same 1 5, .union 0 5, .union 4 2, .find 5]

/-- Merging 0 and 5 again has added nothing, 1 is still alone, and two classes are listed, the second that of 2 or 4. -/
theorem connected_after_calls_mixed : (∀ call ∈ mixedCalls, call.InRange 6) ∧
    Connected mixedCalls 0 5 ∧ ¬Connected mixedCalls 1 5 ∧ (after 6 mixedCalls).classes.2 = [[0, 3, 5], [2, 4]] ∧
    ∃ x < 6, ∀ y, y ∈ [2, 4] ↔ y < 6 ∧ Connected mixedCalls x y := by
  have hcalls : ∀ call ∈ mixedCalls, call.InRange 6 := by decide
  have hclasses : (after 6 mixedCalls).classes.2 = [[0, 3, 5], [2, 4]] := by decide +kernel
  obtain ⟨-, -, hsame, hunion, -, -, -, -, hlisted, -⟩ := connected_after_calls hcalls
  refine ⟨hcalls, (hsame 0 (by decide) 5 (by decide)).mp (by decide +kernel),
    (hunion 1 (by decide) 5 (by decide)).mp (by decide +kernel), hclasses, ?_⟩
  exact ((hlisted [2, 4]).mp (hclasses ▸ by decide)).2.2

end UnionFind

end RankedPlans
