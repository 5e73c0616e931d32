import Mathlib.Algebra.BigOperators.Group.List.Basic
import Mathlib.Data.Finset.Card
import Mathlib.Logic.Function.Iterate
import RankedPlans.Proofs.Symmetry.OrbitMinimum

/-! Representatives of states. Every pass over the generators but the last one makes the state smaller, and a task
has finitely many states, so the passes come to an end: at a state that no generator makes smaller. -/

namespace RankedPlans

open SymmetryGroup

namespace Task

variable {t : Task} {s s' : State}

theorem length_sections {α : Type} (lists : List (List α)) :
    lists.sections.length = (lists.map List.length).prod := by
  induction lists with
  | nil => rfl
  | cons l lists ih =>
    rw [List.sections, List.length_flatMap, List.map_cons, List.prod_cons, ← ih, Nat.mul_comm]
    simp

theorem length_stateLists (t : Task) : t.stateLists.length = t.vars.foldl (fun n v => n * v.values.length) 1 := by
  rw [stateLists, length_sections, List.map_map, List.prod_eq_foldl, List.foldl_map, ← Array.foldl_toList]
  simp

/-- How many states of the task are smaller. -/
def below (t : Task) (s : State) : Nat :=
  (t.stateLists.toFinset.filter (· < s.toList)).card

theorem below_lt (hs' : t.IsState s') (hlt : s' < s) : t.below s' < t.below s := by
  refine Finset.card_lt_card (Finset.ssubset_iff_subset_ne.mpr ⟨fun l hl => ?_, fun heq => ?_⟩)
  · obtain ⟨hmem, hless⟩ := Finset.mem_filter.mp hl
    exact Finset.mem_filter.mpr ⟨hmem, List.lt_trans hless hlt⟩
  · have hself : s'.toList ∈ t.stateLists.toFinset.filter (· < s.toList) :=
      Finset.mem_filter.mpr ⟨List.mem_toFinset.mpr hs'.mem_stateLists, hlt⟩
    rw [← heq] at hself
    exact List.lt_irrefl _ (Finset.mem_filter.mp hself).2

theorem below_lt_length (hs : t.IsState s) : t.below s < t.stateLists.length := by
  refine Nat.lt_of_lt_of_le (Finset.card_lt_card (Finset.filter_ssubset.mpr ⟨s.toList, ?_, ?_⟩))
    t.stateLists.toFinset_card_le
  · exact List.mem_toFinset.mpr hs.mem_stateLists
  · exact List.lt_irrefl _

end Task

namespace Generator

variable {t : Task} {g : Generator} {fixInitial : Bool} {f : Fact} {s : State}

theorem mapFact_eq_self {row : Array Nat} (hstill : g.movesState = false) (hvar : f.var < g.vars.size)
    (hrow : g.values[f.var]? = some row) (hvalue : f.value < row.size) : g.mapFact f = f := by
  simp only [movesState, Bool.or_eq_false_iff, bne_eq_false_iff_eq, Array.any_eq_false'] at hstill
  obtain ⟨hvars, hrows⟩ := hstill
  have hrange : row = Array.range row.size := by simpa using hrows row (Array.mem_of_getElem? hrow)
  have hget : g.vars.getD f.var 0 = f.var := by
    rw [hvars]
    simp [hvar]
  have hget' : (g.values.getD f.var #[]).getD f.value 0 = f.value := by
    rw [show g.values.getD f.var #[] = row by simp [hrow], hrange]
    simp [hvalue]
  rw [mapFact, hget, hget']

theorem Symmetry.mapState_eq_self (h : Symmetry t fixInitial g) (hself : ∀ {f}, t.IsFact f → g.mapFact f = f)
    (hs : t.IsState s) : g.mapState s = s := by
  refine (h.isState_mapState hs).ext hs fun f hf => ?_
  have hfact := (h.isState_mapState hs).isFact hf
  rw [← hself hfact] at hf
  exact (h.holds_mapState_iff hs hfact).mp hf

end Generator

namespace SymmetryGroup

variable {t : Task} {policy : SymmetryPolicy} {fixInitial : Bool} {g : SymmetryGroup} {s : State}

/-- A generator that is said not to move states moves none. -/
theorem mapState_eq_self {gen : Generator} (hgen : gen ∈ (ofTask t policy fixInitial).generators)
    (hstill : gen.movesState = false) (hs : t.IsState s) : gen.mapState s = s := by
  obtain ⟨r, hr, rfl⟩ := ofTask_relabelling (Array.mem_toList_iff.mpr hgen)
  refine hr.symmetry.mapState_eq_self (fun {f} hf => ?_) hs
  obtain ⟨v, x, rfl⟩ := hf.exists_fin
  have hrow : r.generator.values[(v : Nat)]? = some (Array.ofFn fun x => (r.values v x : Nat)) := by
    simp [Relabelling.generator]
  exact Generator.mapFact_eq_self hstill (by simp [Relabelling.generator]) hrow (by simp)

/-- One pass over the generators, from a state and the generators applied to reach it. -/
def pass (g : SymmetryGroup) (p : State × List Nat) : State × List Nat :=
  g.reduceOnce p.1 p.2

/-- With enough fuel the passes end where one more changes nothing. -/
theorem exists_passes (hg : g.Sound t) (hs : t.IsState s) {fuel : Nat} (hfuel : t.below s < fuel)
    (trace : List Nat) : (∃ passes, g.pass^[passes] (s, trace) = g.reduce fuel s trace) ∧
      g.pass (g.reduce fuel s trace) = g.reduce fuel s trace := by
  induction fuel generalizing s trace with
  | zero => exact absurd hfuel (Nat.not_lt_zero _)
  | succ fuel ih =>
    obtain ⟨moved, hdescends, heq, -⟩ := g.reduceOnce_spec s trace
    by_cases hnil : moved = []
    · have hpass : g.reduceOnce s trace = (s, trace) := by simp [heq, hnil, mapState]
      have hreduce : g.reduce (fuel + 1) s trace = (s, trace) := by simp [reduce, hpass]
      rw [hreduce]
      exact ⟨⟨0, rfl⟩, hpass⟩
    · -- the state got smaller, so fewer states are below it
      have hlt := hdescends.lt hnil
      have hs' := isState_mapState hg hdescends.valid hs
      have hne : g.mapState moved s ≠ s := fun heq => Array.lt_irrefl _ (heq ▸ hlt)
      have hreduce : g.reduce (fuel + 1) s trace =
          g.reduce fuel (g.mapState moved s) (trace ++ moved) := by simp [reduce, heq, hne]
      obtain ⟨⟨passes, hpasses⟩, hpass⟩ :=
        ih hs' (Nat.lt_of_lt_of_le (Task.below_lt hs' hlt) (Nat.le_of_lt_succ hfuel)) (trace ++ moved)
      rw [hreduce]
      refine ⟨⟨passes + 1, ?_⟩, hpass⟩
      rw [Function.iterate_succ_apply, pass, heq]
      exact hpasses

/-- Where a pass changes nothing, no generator that moves states makes the state smaller. -/
theorem not_lt_of_pass {trace : List Nat} (hpass : g.pass (s, trace) = (s, trace)) {gen : Generator}
    (hgen : gen ∈ g.generators) (hmoves : gen.movesState = true) : ¬gen.mapState s < s := by
  obtain ⟨moved, -, heq, hleast⟩ := g.reduceOnce_spec s trace
  rw [pass, heq] at hpass
  exact hleast (by simpa using congrArg Prod.snd hpass) gen hgen hmoves

/-- A state that no generator makes smaller is its own representative. -/
theorem canonicalState_eq_self (hleast : ∀ i < g.generators.size, ¬(g.generator i).mapState s < s) :
    g.canonicalState s = (s, []) := by
  obtain ⟨hdescends, heq⟩ := g.canonicalState_descends s
  have hnil : (g.canonicalState s).2 = [] := by
    cases htrace : (g.canonicalState s).2 with
    | nil => rfl
    | cons i trace =>
      rw [htrace] at hdescends
      exact absurd hdescends.2.1 (hleast i hdescends.1)
  rw [hnil] at heq
  exact Prod.ext heq hnil

theorem below_lt_stateCount (policy : SymmetryPolicy) (fixInitial : Bool) (hs : t.IsState s) :
    t.below s < (ofTask t policy fixInitial).stateCount + 1 :=
  Nat.lt_succ_of_lt (Nat.lt_of_lt_of_eq (Task.below_lt_length hs) t.length_stateLists)

/-- No generator makes a representative smaller, if those that are said not to move states move none. -/
theorem not_lt_canonicalState {trace : List Nat} {r : State} (hpass : g.pass (r, trace) = (r, trace))
    (hstill : ∀ gen ∈ g.generators, gen.movesState = false → gen.mapState r = r) :
    ∀ gen ∈ g.generators, ¬gen.mapState r < r := by
  intro gen hgen
  cases hmoves : gen.movesState with
  | false =>
    rw [hstill gen hgen hmoves]
    exact Array.lt_irrefl r
  | true => exact not_lt_of_pass hpass hgen hmoves

/-- Every state of the task has a representative: repeated passes over the generators end there, by a trace of
generators that each make the state smaller, and no generator makes it smaller still. Operators go to the
representative and back along the trace, and their applicability goes with them. -/
theorem canonicalState_representative (policy : SymmetryPolicy) (fixInitial : Bool) (hs : t.IsState s) :
    let g := ofTask t policy fixInitial
    let r := (g.canonicalState s).1
    let trace := (g.canonicalState s).2
    (∃ passes, g.pass^[passes] (s, []) = (r, trace)) ∧ g.pass (r, trace) = (r, trace) ∧
    r = g.mapState trace s ∧ g.Descends trace s ∧ r ≤ s ∧
    (∀ gen ∈ g.generators, ¬gen.mapState r < r) ∧ g.canonicalState r = (r, []) ∧
    ∀ op < t.operators.size,
      g.unmapOperator trace (g.mapOperator trace op) = op ∧
      g.mapOperator trace (g.unmapOperator trace op) = op ∧
      (op ∈ t.applicable s ↔ g.mapOperator trace op ∈ t.applicable r) := by
  have hg := ofTask_sound t policy fixInitial
  have hends := exists_passes hg hs (below_lt_stateCount policy fixInitial hs) []
  have hstill : ∀ {s}, t.IsState s → ∀ gen ∈ (ofTask t policy fixInitial).generators,
      gen.movesState = false → gen.mapState s = s :=
    fun hs gen hgen hmoves => mapState_eq_self hgen hmoves hs
  -- what follows is true of every sound group
  generalize ofTask t policy fixInitial = g at hg hends hstill ⊢
  have hdescends := g.canonicalState_descends s
  rw [← canonicalState] at hends
  dsimp only
  generalize g.canonicalState s = p at hends hdescends ⊢
  obtain ⟨r, trace⟩ := p
  obtain ⟨hpasses, hpass⟩ := hends
  obtain ⟨hdescends, hr⟩ : g.Descends trace s ∧ r = g.mapState trace s := hdescends
  have hv := hdescends.valid
  have hleast := not_lt_canonicalState hpass (hstill (hr ▸ isState_mapState hg hv hs))
  refine ⟨hpasses, hpass, hr, hdescends, ?_, hleast, canonicalState_eq_self fun i hi => ?_, fun op hop => ?_⟩
  · by_cases hnil : trace = []
    · rw [hr, hnil]
      exact Array.le_refl s
    · exact hr ▸ Array.le_of_lt (hdescends.lt hnil)
  · refine hleast _ ?_
    rw [generator, Array.getD_eq_getD_getElem?, Array.getElem?_eq_getElem hi]
    exact Array.getElem_mem hi
  · exact ⟨unmapOperator_mapOperator hg hv hop, (unmapOperator_spec hg hv hop).2,
      hr ▸ (mem_applicable_mapState hg hv hs hop).symm⟩

/-- The first generator is passed over in the first pass and used in the second, once the other has moved the switch
that is on to the middle. -/
theorem canonicalState_representative_threeSwitches :
    (ofTask threeSwitches {} true).canonicalState #[1, 0, 0] = (#[0, 0, 1], [1, 0]) ∧
    (∃ passes, (ofTask threeSwitches {} true).pass^[passes] (#[1, 0, 0], []) = (#[0, 0, 1], [1, 0])) ∧
    (ofTask threeSwitches {} true).Descends [1, 0] #[1, 0, 0] ∧
    (ofTask threeSwitches {} true).canonicalState #[0, 0, 1] = (#[0, 0, 1], []) := by
  have hcanonical : (ofTask threeSwitches {} true).canonicalState #[1, 0, 0] = (#[0, 0, 1], [1, 0]) := by
    rw [ofTask_threeSwitches]
    decide +kernel
  have hs : threeSwitches.IsState #[1, 0, 0] := threeSwitches.isState_initial.apply 0
  obtain ⟨hpasses, -, -, hdescends, -, -, hfixed, -⟩ := canonicalState_representative {} true hs
  rw [hcanonical] at hpasses hdescends hfixed
  exact ⟨hcanonical, hpasses, hdescends, hfixed⟩

end SymmetryGroup

end RankedPlans
