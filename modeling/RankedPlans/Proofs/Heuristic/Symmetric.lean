import Mathlib.Data.Set.Function
import RankedPlans.Proofs.Heuristic.Max
import RankedPlans.Proofs.Symmetry.OrbitMinimum

/-! Symmetric states have the same estimate. A symmetry permutes the operators, so `hmax` comes to the costs of
facts in another order; but the costs that it settles on are the greatest ones that the operators support, in
whatever order they come. So a map that takes operators to operators takes the costs along, and a symmetry and
its inverse are two such maps. -/

namespace RankedPlans

namespace Heuristic.Max

variable {t : Task} {s s' : State} {f f' : Fact} {cost : Fact → Nat} {σ : Fact → Fact} {b : Nat}

theorem slot_injective (hf : t.IsFact f) (hf' : t.IsFact f')
    (heq : slot t.valueOffsets f = slot t.valueOffsets f') : f = f' := by
  refine Task.factVertex_injective hf hf' ?_
  simp only [slot] at heq
  simp only [VertexLayout.factVertex, VertexLayout.ofTask]
  omega

/-- The settled cost of a fact. -/
def factCost (t : Task) (s : State) (f : Fact) : Nat :=
  (settledCosts t s).getD (slot t.valueOffsets f) unreached

theorem factCost_of_holds (hs : t.IsState s) (hf : f.holds s = true) : factCost t s f = 0 :=
  getD_settledCosts_of_holds hs hf

theorem goalCost_le_iff : goalCost t s ≤ b ↔ ∀ f ∈ t.goal, factCost t s f ≤ b :=
  costliest_le_iff

/-- The costs of facts by their places; other places cost nothing. -/
def byPlace (t : Task) (cost : Fact → Nat) (i : Nat) : Nat :=
  ((t.facts.find? fun f => slot t.valueOffsets f == i).map cost).getD 0

theorem byPlace_slot (hf : t.IsFact f) : byPlace t cost (slot t.valueOffsets f) = cost f := by
  unfold byPlace
  cases hfind : t.facts.find? fun f' => slot t.valueOffsets f' == slot t.valueOffsets f with
  | none =>
    have hnone := List.find?_eq_none.mp hfind f (Task.mem_facts.mpr hf)
    exact absurd (beq_self_eq_true _) hnone
  | some f' =>
    have hslot := List.find?_some hfind
    have hf' := Task.mem_facts.mp (List.mem_of_find?_eq_some hfind)
    rw [slot_injective hf' hf (beq_iff_eq.mp hslot)]
    rfl

theorem byPlace_le (hcost : ∀ f, cost f ≤ b) (i : Nat) : byPlace t cost i ≤ b := by
  unfold byPlace
  cases t.facts.find? fun f => slot t.valueOffsets f == i with
  | none => exact Nat.zero_le b
  | some f => exact hcost f

/-- Every operator has one of the same cost whose preconditions are images of its own and whose effects the
images of its effects are, and the goal consists of images of the goal. -/
structure Carries (t : Task) (σ : Fact → Fact) : Prop where
  operator : ∀ o ∈ t.operators, ∃ o' ∈ t.operators, o'.cost = o.cost ∧
    (∀ p' ∈ o'.preconditions, ∃ p ∈ o.preconditions, σ p = p') ∧ ∀ f ∈ o.effects, σ f ∈ o'.effects
  goal : ∀ f' ∈ t.goal, ∃ f ∈ t.goal, σ f = f'

/-- The costs of the images are supported, as the images of the operators support them. -/
theorem Carries.supported (h : Carries t σ) (s' : State) :
    Supported t (byPlace t fun f => factCost t s' (σ f)) := by
  intro o ho f hf b hneeded
  obtain ⟨op, hop, rfl⟩ := Array.mem_iff_getElem.mp ho
  rw [← Task.operator_eq hop] at hf hneeded ⊢
  obtain ⟨hpre, heff, -⟩ := t.operator_facts op
  obtain ⟨o', ho', hcost, hpre', heff'⟩ := h.operator _ (Task.operator_eq hop ▸ ho)
  rw [byPlace_slot (heff f hf), ← hcost]
  refine supported_settledCosts t s' o' ho' (σ f) (heff' f hf) b fun p' hp' => ?_
  obtain ⟨p, hp, rfl⟩ := hpre' p' hp'
  have hle := hneeded p hp
  rwa [byPlace_slot (hpre p hp)] at hle

/-- If the images of all facts of a state hold in another one, no image costs more there than the fact here. -/
theorem Carries.factCost_le (h : Carries t σ) (hs : t.IsState s) (hs' : t.IsState s')
    (hstate : ∀ f : Fact, f.holds s = true → (σ f).holds s' = true) (hf : t.IsFact f) :
    factCost t s' (σ f) ≤ factCost t s f := by
  have himage : byPlace t (fun f => factCost t s' (σ f)) (slot t.valueOffsets f) = factCost t s' (σ f) :=
    byPlace_slot hf
  rw [← himage]
  refine le_settledCosts (h.supported s') (fun i => ?_) _
  rcases getD_initialCosts_cases t.valueOffsets s i with htop | ⟨f, hold, rfl⟩
  · rw [htop]
    exact byPlace_le (fun f => settledCosts_bounded t s' _) i
  · rw [byPlace_slot (hs.isFact hold), factCost_of_holds hs' (hstate f hold)]
    exact Nat.zero_le _

theorem Carries.goalCost_le (h : Carries t σ) (hs : t.IsState s) (hs' : t.IsState s')
    (hstate : ∀ f : Fact, f.holds s = true → (σ f).holds s' = true) : goalCost t s' ≤ goalCost t s := by
  refine goalCost_le_iff.mpr fun f' hf' => ?_
  obtain ⟨f, hf, rfl⟩ := h.goal f' hf'
  exact (h.factCost_le hs hs' hstate (t.goal_facts.1 f hf)).trans (goalCost_le_iff.mp (Nat.le_refl _) f hf)

end Heuristic.Max

namespace Generator.Symmetry

open Heuristic.Max

variable {t : Task} {g : Generator} {fixInitial : Bool} {s : State} {f : Fact}

/-- The fact of the task whose image is the given one. -/
noncomputable def unmapFact (t : Task) (g : Generator) : Fact → Fact :=
  Function.invFunOn g.mapFact {f | t.IsFact f}

theorem unmapFact_spec (h : Symmetry t fixInitial g) (hf : t.IsFact f) :
    t.IsFact (unmapFact t g f) ∧ g.mapFact (unmapFact t g f) = f :=
  ⟨Function.invFunOn_mem (h.exists_fact hf), Function.invFunOn_eq (h.exists_fact hf)⟩

theorem unmapFact_mapFact (h : Symmetry t fixInitial g) (hf : t.IsFact f) :
    unmapFact t g (g.mapFact f) = f := by
  obtain ⟨hfact, heq⟩ := unmapFact_spec h (h.isFact hf)
  exact h.fact_injective hfact hf heq

theorem carries_mapFact (h : Symmetry t fixInitial g) : Carries t g.mapFact where
  operator o ho := by
    obtain ⟨op, hop, rfl⟩ := Array.mem_iff_getElem.mp ho
    have hop' := h.operator_lt hop
    rw [← Task.operator_eq hop]
    refine ⟨t.operator (g.mapOperator op), Task.operator_eq hop' ▸ Array.getElem_mem hop', h.cost_eq hop,
      fun p' hp' => ?_, fun f hf => ?_⟩
    · obtain ⟨p, hp, rfl⟩ := h.exists_fact ((t.operator_facts _).1 p' hp')
      exact ⟨p, (h.linked_iff .precondition hop hp).mp hp', rfl⟩
    · exact (h.linked_iff .effect hop ((t.operator_facts op).2.1 f hf)).mpr hf
  goal f' hf' := by
    obtain ⟨f, hf, rfl⟩ := h.exists_fact (t.goal_facts.1 f' hf')
    exact ⟨f, (h.goal_iff hf).mp hf', rfl⟩

theorem carries_unmapFact (h : Symmetry t fixInitial g) : Carries t (unmapFact t g) where
  operator o ho := by
    obtain ⟨op, hop, rfl⟩ := Array.mem_iff_getElem.mp ho
    obtain ⟨op, hlt, rfl⟩ := h.exists_operator hop
    rw [← Task.operator_eq hop]
    refine ⟨t.operator op, Task.operator_eq hlt ▸ Array.getElem_mem hlt, (h.cost_eq hlt).symm,
      fun p hp => ?_, fun f hf => ?_⟩
    · have hfact := (t.operator_facts op).1 p hp
      exact ⟨g.mapFact p, (h.linked_iff .precondition hlt hfact).mpr hp, unmapFact_mapFact h hfact⟩
    · obtain ⟨hfact, heq⟩ := unmapFact_spec h ((t.operator_facts _).2.1 f hf)
      exact (h.linked_iff .effect hlt hfact).mp (heq.symm ▸ hf)
  goal f hf := by
    have hfact := t.goal_facts.1 f hf
    exact ⟨g.mapFact f, (h.goal_iff hfact).mpr hf, unmapFact_mapFact h hfact⟩

theorem goalCost_mapState (h : Symmetry t fixInitial g) (hs : t.IsState s) :
    goalCost t (g.mapState s) = goalCost t s := by
  have hs' := h.isState_mapState hs
  refine Nat.le_antisymm ?_ ?_
  · exact (carries_mapFact h).goalCost_le hs hs' fun f => h.holds_mapFact hs
  · refine (carries_unmapFact h).goalCost_le hs' hs fun f hf => ?_
    obtain ⟨hfact, heq⟩ := unmapFact_spec h (hs'.isFact hf)
    exact (h.holds_mapState_iff hs hfact).mp (heq.symm ▸ hf)

/-- No heuristic that can be chosen tells a state from its image. -/
theorem estimate_mapState (h : Symmetry t fixInitial g) (hs : t.IsState s) (choice : HeuristicChoice) :
    choice.heuristic.estimate t (g.mapState s) = choice.heuristic.estimate t s := by
  cases choice with
  | blind =>
    have hgoal := Bool.eq_iff_iff.mpr (h.isGoal_mapState hs)
    simp only [HeuristicChoice.heuristic, Heuristic.blind, hgoal]
  | max =>
    rw [HeuristicChoice.heuristic, Heuristic.max_estimate_eq, Heuristic.max_estimate_eq, goalCost_mapState h hs]

end Generator.Symmetry

open SymmetryGroup

variable {t : Task} {s : State}

/-- A trace leads to states of the same estimate. -/
theorem SymmetryGroup.estimate_mapState {g : SymmetryGroup} {trace : List Nat} (hg : g.Sound t)
    (hv : g.Valid trace) (hs : t.IsState s) (choice : HeuristicChoice) :
    choice.heuristic.estimate t (g.mapState trace s) = choice.heuristic.estimate t s := by
  induction trace generalizing s with
  | nil => rfl
  | cons i trace ih =>
    obtain ⟨hi, hv⟩ := List.forall_mem_cons.mp hv
    exact (ih hv ((hg i hi).isState_mapState hs)).trans ((hg i hi).estimate_mapState hs choice)

/-- The heuristics that can be chosen give a state, its image under each generator of a computed group, all images
under several of them in turn and the representative of its orbit one and the same estimate. -/
theorem HeuristicChoice.estimate_symmetric (policy : SymmetryPolicy) (fixInitial : Bool) (hs : t.IsState s)
    (choice : HeuristicChoice) :
    (∀ gen ∈ (ofTask t policy fixInitial).generators,
      choice.heuristic.estimate t (gen.mapState s) = choice.heuristic.estimate t s) ∧
    (∀ trace, (ofTask t policy fixInitial).Valid trace →
      choice.heuristic.estimate t ((ofTask t policy fixInitial).mapState trace s) =
        choice.heuristic.estimate t s) ∧
    choice.heuristic.estimate t ((ofTask t policy fixInitial).canonicalState s).1 =
      choice.heuristic.estimate t s := by
  have hsound := ofTask_sound t policy fixInitial
  refine ⟨fun gen hgen => ?_, fun trace hv => estimate_mapState hsound hv hs choice, ?_⟩
  · obtain ⟨r, hr, rfl⟩ := ofTask_relabelling (Array.mem_toList_iff.mpr hgen)
    exact hr.symmetry.estimate_mapState hs choice
  · obtain ⟨hv, heq⟩ := (ofTask t policy fixInitial).canonicalState_spec s
    rw [heq]
    exact estimate_mapState hsound hv hs choice

/-- Two chests that are alike, each behind a door of its own: what is nearest the goal differs in place only. -/
def Task.twoChests : Task where
  vars := #[⟨"left door", ["shut", "open"]⟩, ⟨"left chest", ["full", "empty"]⟩,
    ⟨"right chest", ["empty", "full"]⟩, ⟨"right door", ["shut", "open"]⟩]
  operators := #[⟨"empty left", 2, [⟨0, 1⟩], [⟨1, 1⟩]⟩, ⟨"open left", 3, [⟨0, 0⟩], [⟨0, 1⟩]⟩,
    ⟨"open right", 3, [⟨3, 0⟩], [⟨3, 1⟩]⟩, ⟨"empty right", 2, [⟨3, 1⟩], [⟨2, 0⟩]⟩]
  initial := #[0, 0, 1, 0]
  goal := [⟨1, 1⟩, ⟨2, 0⟩]
  normalized := by decide +kernel
  faultless := by decide +kernel

/-- While only the left door is open, the right chest is what costs most; in the representative it is the left
chest. -/
theorem HeuristicChoice.estimate_symmetric_twoChests :
    (ofTask .twoChests {} false).canonicalState #[1, 0, 1, 0] = (#[0, 0, 1, 1], [0]) ∧
      max.heuristic.estimate .twoChests #[1, 0, 1, 0] = .value 5 ∧
      max.heuristic.estimate .twoChests #[0, 0, 1, 1] = .value 5 := by
  have hgroup : ofTask .twoChests {} false =
      { generators := #[⟨#[3, 2, 1, 0], #[#[0, 1], #[1, 0], #[1, 0], #[0, 1]], #[3, 2, 1, 0], #[3, 2, 1, 0]⟩]
        fixesInitial := false
        complete := true
        orbitLimit := 1000
        stateCount := 16 } := by
    decide +kernel
  have hcanonical : (ofTask .twoChests {} false).canonicalState #[1, 0, 1, 0] = (#[0, 0, 1, 1], [0]) := by
    rw [hgroup]
    decide +kernel
  have hvalue : max.heuristic.estimate .twoChests #[1, 0, 1, 0] = .value 5 := by
    decide +kernel
  have hs : Task.twoChests.IsState #[1, 0, 1, 0] := Task.twoChests.isState_initial.apply 1
  obtain ⟨-, -, hrepresentative⟩ := estimate_symmetric {} false hs .max
  rw [hcanonical] at hrepresentative
  exact ⟨hcanonical, hvalue, hrepresentative.trans hvalue⟩

end RankedPlans
