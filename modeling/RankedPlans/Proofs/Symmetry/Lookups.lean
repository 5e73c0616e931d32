import RankedPlans.Proofs.Symmetry.Group
import RankedPlans.Proofs.Task.Lookups

/-! Images and representatives of states with every access to an array checked. The generators of a computed
group have an image for every variable, value and operator of the task, so on states of the task the checked
definitions give what the unchecked ones give, and states of the task again. -/

namespace RankedPlans

open RankedPlans.Task

/-- A generator has an image for every variable and value of a task and an original for every operator. -/
structure Generator.Fits (t : Task) (gen : Generator) : Prop where
  vars : gen.vars.size = t.vars.size
  values : ∀ {f : Fact}, t.IsFact f → ∃ vs, gen.values[f.var]? = some vs ∧ f.value < vs.size
  inverse : gen.inverse.size = t.operators.size

theorem Generator.ofVertices_fits (t : Task) (image : Array Nat) : (ofVertices t image).Fits t where
  vars := by simp [ofVertices, VertexLayout.ofTask]
  values := by
    rintro f ⟨v, hv, hvalue⟩
    obtain ⟨hlt, rfl⟩ := Array.getElem?_eq_some_iff.mp hv
    simp [ofVertices, hlt, hvalue]
  inverse := by
    simp only [ofVertices]
    rw [size_foldl_setIfInBounds Prod.fst Prod.snd]
    simp [VertexLayout.ofTask]

/-- Every generator has all images it may be asked for. -/
def SymmetryGroup.Fits (t : Task) (g : SymmetryGroup) : Prop :=
  ∀ i < g.generators.size, (g.generator i).Fits t

theorem SymmetryGroup.ofTask_fits (t : Task) (policy : SymmetryPolicy) (fixInitial : Bool) :
    (ofTask t policy fixInitial).Fits t := by
  intro i hi
  obtain ⟨image, -, heq⟩ := exists_generator_eq t policy fixInitial hi
  rw [heq]
  exact Generator.ofVertices_fits t image

namespace Checked

def mapFact (gen : Generator) (f : Fact) : Option Fact := do
  let var ← gen.vars[f.var]?
  let values ← gen.values[f.var]?
  let value ← values[f.value]?
  return ⟨var, value⟩

def mapState (gen : Generator) (s : State) : Option State :=
  s.toList.zipIdx.foldlM (fun image p => do
    let f ← mapFact gen ⟨p.2, p.1⟩
    write image f.var f.value) (Array.replicate s.size 0)

def reduceOnce (g : SymmetryGroup) (s : State) (trace : List Nat) : Option (State × List Nat) :=
  g.generators.toList.zipIdx.foldlM (fun r p => do
    if p.1.movesState then
      let image ← mapState p.1 r.1
      return if compare image r.1 == .lt then (image, r.2 ++ [p.2]) else r
    else return r) (s, trace)

def reduce (g : SymmetryGroup) : Nat → State → List Nat → Option (State × List Nat)
  | 0, s, trace => some (s, trace)
  | fuel + 1, s, trace => do
    let next ← reduceOnce g s trace
    if next.1 = s then return (s, next.2) else reduce g fuel next.1 next.2

def canonicalState (g : SymmetryGroup) (s : State) : Option (State × List Nat) :=
  reduce g (g.stateCount + 1) s []

def unmapOperator (g : SymmetryGroup) (trace : List Nat) (op : Nat) : Option Nat :=
  trace.foldrM (fun i op => do
    let gen ← g.generators[i]?
    gen.inverse[op]?) op

variable {t : Task} {gen : Generator} {fixInitial : Bool} {s : State} {g : SymmetryGroup} {trace : List Nat}
  {op i : Nat}

theorem mapFact_eq (hfits : gen.Fits t) {f : Fact} (hf : t.IsFact f) : mapFact gen f = some (gen.mapFact f) := by
  obtain ⟨vs, hvs, hvalue⟩ := hfits.values hf
  have hvar : f.var < gen.vars.size := hfits.vars ▸ hf.lt
  simp [mapFact, Generator.mapFact, hvs, hvar, hvalue]

theorem mapState_eq (hgen : gen.Symmetry t fixInitial) (hfits : gen.Fits t) (hs : t.IsState s) :
    mapState gen s = some (gen.mapState s) := by
  refine (foldlM_eq_some (P := fun image => image.size = t.vars.size) (fun p hp image hsize => ?_)
    (Array.size_replicate.trans hs.size_eq)).1
  have hfact := hs.isFact_of_mem_zipIdx hp
  rw [mapFact_eq hfits hfact]
  exact ⟨write_eq (hsize ▸ (hgen.isFact hfact).lt) _, Array.size_setIfInBounds.trans hsize⟩

section Group

variable (hg : g.Sound t) (hfits : g.Fits t)
include hg hfits

theorem reduceOnce_eq (hs : t.IsState s) (trace : List Nat) :
    reduceOnce g s trace = some (g.reduceOnce s trace) ∧ t.IsState (g.reduceOnce s trace).1 := by
  refine foldlM_eq_some (P := fun r : State × List Nat => t.IsState r.1) (fun p hp r hr => ?_) hs
  obtain ⟨gen, i⟩ := p
  obtain ⟨s, trace⟩ := r
  have hget : g.generators[i]? = some gen := by simpa using List.mk_mem_zipIdx_iff_getElem?.mp hp
  have hi := (Array.getElem?_eq_some_iff.mp hget).1
  have hgen : g.generator i = gen := by simp [SymmetryGroup.generator, hget]
  have himage := mapState_eq (hg i hi) (hfits i hi) hr
  have hstate := (hg i hi).isState_mapState hr
  rw [hgen] at himage hstate
  cases hmoves : gen.movesState with
  | false => simpa [hmoves] using hr
  | true =>
    by_cases hless : compare (gen.mapState s) s = .lt
    · simpa [hmoves, himage, hless] using hstate
    · simpa [hmoves, himage, hless] using hr

theorem reduce_eq (fuel : Nat) (hs : t.IsState s) (trace : List Nat) :
    reduce g fuel s trace = some (g.reduce fuel s trace) := by
  induction fuel generalizing s trace with
  | zero => rfl
  | succ fuel ih =>
    obtain ⟨heq, hnext⟩ := reduceOnce_eq hg hfits hs trace
    rw [reduce, heq, SymmetryGroup.reduce]
    simp only [Option.bind_eq_bind, Option.bind_some]
    split
    · rfl
    · exact ih hnext _

theorem canonicalState_eq (hs : t.IsState s) : canonicalState g s = some (g.canonicalState s) :=
  reduce_eq hg hfits _ hs []

theorem unmapOperator_eq (hv : g.Valid trace) (hop : op < t.operators.size) :
    unmapOperator g trace op = some (g.unmapOperator trace op) := by
  induction trace with
  | nil => rfl
  | cons i trace ih =>
    obtain ⟨hi, hv⟩ := List.forall_mem_cons.mp hv
    have hgen : g.generators[i]? = some (g.generator i) := by simp [SymmetryGroup.generator, hi]
    have hop : (g.generator i).inverse[g.unmapOperator trace op]? =
        some ((g.generator i).unmapOperator (g.unmapOperator trace op)) := by
      have hlt : g.unmapOperator trace op < (g.generator i).inverse.size :=
        (hfits i hi).inverse ▸ (g.unmapOperator_spec hg hv hop).1
      simp [Generator.unmapOperator, hlt]
    rw [unmapOperator, List.foldrM_cons, show trace.foldrM _ op = _ from ih hv]
    simp only [Option.bind_eq_bind, Option.bind_some, hgen, hop]
    rfl

end Group

end Checked

end RankedPlans
