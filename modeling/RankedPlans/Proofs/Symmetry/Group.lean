import RankedPlans.Proofs.Symmetry.Automorphism
import RankedPlans.Proofs.Symmetry.Generator
import RankedPlans.Symmetry.Group

/-! Generators applied in turn: they act on states and operators as one symmetry, whose inverse takes the
generators back in the opposite order. -/

namespace RankedPlans.SymmetryGroup

open RankedPlans.Task

variable {t : Task} {g : SymmetryGroup} {s : State} {trace : List Nat} {op i : Nat}

/-- Every generator is a symmetry of the task. -/
def Sound (t : Task) (g : SymmetryGroup) : Prop :=
  ∀ i < g.generators.size, (g.generator i).Symmetry t g.fixesInitial

/-- The generators of the computed group stand for permutations of the vertices that were found. -/
theorem exists_generator_eq (t : Task) (policy : SymmetryPolicy) (fixInitial : Bool)
    (hi : i < (ofTask t policy fixInitial).generators.size) :
    ∃ image ∈ ((t.descriptionGraph fixInitial).findGenerators policy.searchNodes).generators,
      (ofTask t policy fixInitial).generator i = .ofVertices t image := by
  have hmem : (ofTask t policy fixInitial).generator i ∈
      (ofTask t policy fixInitial).generators.toList := by
    rw [generator, Array.getD_eq_getD_getElem?, Array.getElem?_eq_getElem hi]
    exact Array.getElem_mem_toList hi
  simp only [ofTask, List.mem_filter, List.mem_map] at hmem
  obtain ⟨⟨image, himage, heq⟩, -⟩ := hmem
  exact ⟨image, himage, heq.symm⟩

/-- The computed group consists of symmetries, within any budget. -/
theorem ofTask_sound (t : Task) (policy : SymmetryPolicy) (fixInitial : Bool) :
    (ofTask t policy fixInitial).Sound t := by
  intro i hi
  obtain ⟨image, himage, heq⟩ := exists_generator_eq t policy fixInitial hi
  rw [heq]
  exact Generator.ofVertices_symmetry (ColoredGraph.findGenerators_automorphism himage)

/-- All generators of a trace belong to the group. -/
def Valid (g : SymmetryGroup) (trace : List Nat) : Prop :=
  ∀ i ∈ trace, i < g.generators.size

theorem Valid.append {rest : List Nat} (h : g.Valid trace) (h' : g.Valid rest) :
    g.Valid (trace ++ rest) :=
  List.forall_mem_append.mpr ⟨h, h'⟩

theorem mapState_append (trace rest : List Nat) (s : State) :
    g.mapState (trace ++ rest) s = g.mapState rest (g.mapState trace s) :=
  List.foldl_append

section Trace

variable (hg : g.Sound t) (hv : g.Valid trace)
include hg hv

theorem cost_mapOperator (hop : op < t.operators.size) :
    (t.operator (g.mapOperator trace op)).cost = (t.operator op).cost := by
  induction trace generalizing op with
  | nil => rfl
  | cons i trace ih =>
    obtain ⟨hi, hv⟩ := List.forall_mem_cons.mp hv
    exact (ih hv ((hg i hi).operator_lt hop)).trans ((hg i hi).cost_eq hop)

theorem isState_mapState (hs : t.IsState s) : t.IsState (g.mapState trace s) := by
  induction trace generalizing s with
  | nil => exact hs
  | cons i trace ih =>
    obtain ⟨hi, hv⟩ := List.forall_mem_cons.mp hv
    exact ih hv ((hg i hi).isState_mapState hs)

theorem isGoal_mapState (hs : t.IsState s) :
    t.isGoal (g.mapState trace s) = true ↔ t.isGoal s = true := by
  induction trace generalizing s with
  | nil => exact Iff.rfl
  | cons i trace ih =>
    obtain ⟨hi, hv⟩ := List.forall_mem_cons.mp hv
    exact (ih hv ((hg i hi).isState_mapState hs)).trans ((hg i hi).isGoal_mapState hs)

theorem mem_applicable_mapState (hs : t.IsState s) (hop : op < t.operators.size) :
    g.mapOperator trace op ∈ t.applicable (g.mapState trace s) ↔ op ∈ t.applicable s := by
  induction trace generalizing s op with
  | nil => exact Iff.rfl
  | cons i trace ih =>
    obtain ⟨hi, hv⟩ := List.forall_mem_cons.mp hv
    exact (ih hv ((hg i hi).isState_mapState hs) ((hg i hi).operator_lt hop)).trans
      ((hg i hi).mem_applicable_mapState hs hop)

theorem apply_mapState (hs : t.IsState s) (hop : op < t.operators.size) :
    t.apply (g.mapState trace s) (g.mapOperator trace op) = g.mapState trace (t.apply s op) := by
  induction trace generalizing s op with
  | nil => rfl
  | cons i trace ih =>
    obtain ⟨hi, hv⟩ := List.forall_mem_cons.mp hv
    have hrest := ih hv ((hg i hi).isState_mapState hs) ((hg i hi).operator_lt hop)
    rw [(hg i hi).apply_mapState hs hop] at hrest
    exact hrest

/-- Taking an operator back through the inverse generators, the last one first, undoes the trace. -/
theorem unmapOperator_spec (hop : op < t.operators.size) :
    g.unmapOperator trace op < t.operators.size ∧
      g.mapOperator trace (g.unmapOperator trace op) = op := by
  induction trace with
  | nil => exact ⟨hop, rfl⟩
  | cons i trace ih =>
    obtain ⟨hi, hv⟩ := List.forall_mem_cons.mp hv
    obtain ⟨hlt, hmap⟩ := ih hv
    obtain ⟨hlt', hmap'⟩ := (hg i hi).unmapOperator_spec hlt
    refine ⟨hlt', ?_⟩
    show g.mapOperator trace ((g.generator i).mapOperator
      ((g.generator i).unmapOperator (g.unmapOperator trace op))) = op
    rw [hmap', hmap]

theorem unmapOperator_mapOperator (hop : op < t.operators.size) :
    g.unmapOperator trace (g.mapOperator trace op) = op := by
  induction trace generalizing op with
  | nil => rfl
  | cons i trace ih =>
    obtain ⟨hi, hv⟩ := List.forall_mem_cons.mp hv
    show (g.generator i).unmapOperator
      (g.unmapOperator trace (g.mapOperator trace ((g.generator i).mapOperator op))) = op
    rw [ih hv ((hg i hi).operator_lt hop), (hg i hi).unmapOperator_mapOperator hop]

theorem unmapOperator_injective {op' : Nat} (hop : op < t.operators.size)
    (hop' : op' < t.operators.size) (heq : g.unmapOperator trace op = g.unmapOperator trace op') :
    op = op' := by
  rw [← (unmapOperator_spec hg hv hop).2, heq, (unmapOperator_spec hg hv hop').2]

end Trace

section Canonical

/-- Every generator of a trace, applied in its turn, makes the state smaller. -/
def Descends (g : SymmetryGroup) : List Nat → State → Prop
  | [], _ => True
  | i :: trace, s => i < g.generators.size ∧ (g.generator i).mapState s < s ∧
      g.Descends trace ((g.generator i).mapState s)

theorem Descends.valid (h : g.Descends trace s) : g.Valid trace := by
  induction trace generalizing s with
  | nil => exact nofun
  | cons i trace ih => exact List.forall_mem_cons.mpr ⟨h.1, ih h.2.2⟩

theorem Descends.append {rest : List Nat} (h : g.Descends trace s)
    (h' : g.Descends rest (g.mapState trace s)) : g.Descends (trace ++ rest) s := by
  induction trace generalizing s with
  | nil => exact h'
  | cons i trace ih => exact ⟨h.1, h.2.1, ih h.2.2 h'⟩

theorem Descends.lt (h : g.Descends trace s) (hne : trace ≠ []) : g.mapState trace s < s := by
  induction trace generalizing s with
  | nil => exact absurd rfl hne
  | cons i trace ih =>
    obtain ⟨-, hlt, hrest⟩ := h
    by_cases hnil : trace = []
    · rw [hnil]
      exact hlt
    · exact Array.lt_trans (ih hrest hnil) hlt

/-- Each generator sees the state that those before it have made; if none moves it, none makes it smaller. -/
theorem foldl_descends {gens : List (Generator × Nat)} (hgens : ∀ p ∈ gens, g.generators[p.2]? = some p.1)
    (s : State) (trace : List Nat) : ∃ moved, g.Descends moved s ∧
    gens.foldl (fun (s, trace) (gen, i) =>
      if gen.movesState && compare (gen.mapState s) s == .lt then (gen.mapState s, trace ++ [i])
      else (s, trace)) (s, trace) = (g.mapState moved s, trace ++ moved) ∧
    (moved = [] → ∀ p ∈ gens, p.1.movesState = true → ¬p.1.mapState s < s) := by
  induction gens generalizing s trace with
  | nil => exact ⟨[], trivial, by simp [mapState], fun _ => nofun⟩
  | cons p gens ih =>
    obtain ⟨gen, i⟩ := p
    obtain ⟨hget, hgens⟩ := List.forall_mem_cons.mp hgens
    have hgen : g.generator i = gen := by simp [generator, hget]
    simp only [List.foldl_cons, Bool.and_eq_true, beq_iff_eq, State.compare_eq_lt_iff] at ih ⊢
    split
    · rename_i hmoves
      obtain ⟨moved, hdescends, heq, -⟩ := ih hgens (gen.mapState s) (trace ++ [i])
      refine ⟨i :: moved, ⟨(Array.getElem?_eq_some_iff.mp hget).1, ?_, ?_⟩, ?_, nofun⟩
      · exact hgen ▸ hmoves.2
      · exact hgen ▸ hdescends
      · rw [heq, List.append_assoc, ← hgen]
        rfl
    · rename_i hkept
      obtain ⟨moved, hdescends, heq, hleast⟩ := ih hgens s trace
      exact ⟨moved, hdescends, heq, fun hnil => List.forall_mem_cons.mpr
        ⟨fun hmoves hlt => hkept ⟨hmoves, hlt⟩, hleast hnil⟩⟩

/-- A pass extends the trace by generators that make the state smaller in their turn, if there is one. -/
theorem reduceOnce_spec (g : SymmetryGroup) (s : State) (trace : List Nat) : ∃ moved, g.Descends moved s ∧
    g.reduceOnce s trace = (g.mapState moved s, trace ++ moved) ∧
    (moved = [] → ∀ gen ∈ g.generators, gen.movesState = true → ¬gen.mapState s < s) := by
  have hgens : ∀ p ∈ g.generators.toList.zipIdx, g.generators[p.2]? = some p.1 := fun p hp => by
    simpa using List.mk_mem_zipIdx_iff_getElem?.mp hp
  obtain ⟨moved, hdescends, heq, hleast⟩ := foldl_descends hgens s trace
  refine ⟨moved, hdescends, heq, fun hnil gen hgen => ?_⟩
  obtain ⟨i, hi⟩ := Array.mem_iff_getElem?.mp hgen
  exact hleast hnil (gen, i) (List.mk_mem_zipIdx_iff_getElem?.mpr (by simpa using hi))

theorem reduce_spec (g : SymmetryGroup) (fuel : Nat) (s : State) (trace : List Nat) :
    ∃ moved, g.Descends moved s ∧ g.reduce fuel s trace = (g.mapState moved s, trace ++ moved) := by
  induction fuel generalizing s trace with
  | zero => exact ⟨[], trivial, by simp [reduce, mapState]⟩
  | succ fuel ih =>
    obtain ⟨moved, hdescends, heq, -⟩ := g.reduceOnce_spec s trace
    rw [reduce, heq]
    simp only
    split
    · rename_i hsame
      exact ⟨moved, hdescends, by rw [hsame]⟩
    · obtain ⟨rest, hrest, hreduce⟩ := ih (g.mapState moved s) (trace ++ moved)
      refine ⟨moved ++ rest, hdescends.append hrest, ?_⟩
      rw [hreduce, mapState_append, List.append_assoc]

/-- The representative is the image of the state under the trace, which makes it smaller at every step. -/
theorem canonicalState_descends (g : SymmetryGroup) (s : State) : g.Descends (g.canonicalState s).2 s ∧
    (g.canonicalState s).1 = g.mapState (g.canonicalState s).2 s := by
  obtain ⟨moved, hdescends, heq⟩ := g.reduce_spec (g.stateCount + 1) s []
  rw [canonicalState, heq]
  exact ⟨hdescends, rfl⟩

theorem canonicalState_spec (g : SymmetryGroup) (s : State) : g.Valid (g.canonicalState s).2 ∧
    (g.canonicalState s).1 = g.mapState (g.canonicalState s).2 s :=
  ⟨(g.canonicalState_descends s).1.valid, (g.canonicalState_descends s).2⟩

end Canonical

end RankedPlans.SymmetryGroup
