import RankedPlans.Digest.Basic
import RankedPlans.Enumeration.Policy
import RankedPlans.Symmetry.Automorphism
import RankedPlans.Symmetry.Generator

/-!
Groups of symmetries, given by generators. A state is brought to a representative of its orbit by
generators that make it smaller; a plan is compared with others by the least key of its images.
-/

namespace RankedPlans

structure SymmetryGroup where
  generators : Array Generator
  /-- Whether every generator keeps the initial state. -/
  fixesInitial : Bool
  /-- Whether the generators give all symmetries. -/
  complete : Bool
  /-- How many images of a plan are looked at. -/
  orbitLimit : Nat
  /-- The number of states of the task. -/
  stateCount : Nat
deriving DecidableEq, Repr

namespace SymmetryGroup

/-- The symmetries of a task, found within the policy's limits. -/
def ofTask (t : Task) (policy : SymmetryPolicy) (fixInitial : Bool) : SymmetryGroup :=
  let search := (t.descriptionGraph fixInitial).findGenerators policy.searchNodes
  let generators := (search.generators.map (Generator.ofVertices t)).filter fun g =>
    g.movesState || g.movesOperators
  { generators := generators.toArray
    fixesInitial := fixInitial
    complete := search.complete
    orbitLimit := policy.orbitSize
    stateCount := t.vars.foldl (fun n v => n * v.values.length) 1 }

/-- The generator of an index. -/
def generator (g : SymmetryGroup) (i : Nat) : Generator :=
  g.generators.getD i default

/-- One pass over the generators: each that makes the state smaller is applied. -/
def reduceOnce (g : SymmetryGroup) (s : State) (trace : List Nat) : State × List Nat :=
  g.generators.toList.zipIdx.foldl (fun (s, trace) (gen, i) =>
    let image := gen.mapState s
    if gen.movesState && compare image s == .lt then (image, trace ++ [i]) else (s, trace)) (s, trace)

/-- Passes until the state stays as it is. -/
def reduce (g : SymmetryGroup) : Nat → State → List Nat → State × List Nat
  | 0, s, trace => (s, trace)
  | fuel + 1, s, trace =>
    let (next, trace) := g.reduceOnce s trace
    if next = s then (s, trace) else g.reduce fuel next trace

/-- A state of the same orbit that no generator makes smaller, and the generators applied to reach it.
Every pass but the last makes the state smaller, so the number of states bounds them. -/
def canonicalState (g : SymmetryGroup) (s : State) : State × List Nat :=
  g.reduce (g.stateCount + 1) s []

/-- The image of a state under some generators in turn. -/
def mapState (g : SymmetryGroup) (trace : List Nat) (s : State) : State :=
  trace.foldl (fun s i => (g.generator i).mapState s) s

/-- The image of an operator under some generators in turn. -/
def mapOperator (g : SymmetryGroup) (trace : List Nat) (op : Nat) : Nat :=
  trace.foldl (fun op i => (g.generator i).mapOperator op) op

/-- The operator whose image under some generators in turn is the given one. -/
def unmapOperator (g : SymmetryGroup) (trace : List Nat) (op : Nat) : Nat :=
  trace.foldr (fun i op => (g.generator i).unmapOperator op) op

/-- The classes of numbers below `n` that the images connect. -/
def orbits (n : Nat) (images : List (Array Nat)) : List (List Nat) :=
  (images.foldl UnionFind.unionImages (.ofSize n)).classes.2

/-- The variables that the generators move into each other. -/
def variableOrbits (g : SymmetryGroup) : List (List Nat) :=
  let images := g.generators.toList.map (·.vars)
  orbits ((images.map Array.size).max?.getD 0) images

/-- The operators that the generators move into each other. -/
def operatorOrbits (g : SymmetryGroup) : List (List Nat) :=
  let images := g.generators.toList.map (·.operators)
  orbits ((images.map Array.size).max?.getD 0) images

/-- The digest of the generators in the order in which they were found. -/
def digest (g : SymmetryGroup) : ContentHash :=
  let numbers := fun (ns : Array Nat) => Json.array (ns.toList.map fun (n : Nat) => .integer n)
  let generator := fun (gen : Generator) => Json.object [("op_perm", numbers gen.operators),
    ("value_map", .array (gen.values.toList.map numbers)), ("var_perm", numbers gen.vars)]
  .ofText .symmetryGroup <| Json.text <| Json.sortKeys <| .object
    [("complete", .bool g.complete), ("generators", .array (g.generators.toList.map generator)),
      ("stabilizes_initial_state", .bool g.fixesInitial)]

end SymmetryGroup

end RankedPlans
