import RankedPlans.Symmetry.Refinement
import RankedPlans.Task.Execution

/-!
The description graph of a task. Its vertices are the variables, their values and the operators. Each
value is linked to its variable, and each operator to the values of its preconditions and effects.
Colours tell the three kinds apart, and values by whether they belong to the goal and, if asked, to
the initial state, and operators by their costs.
-/

namespace RankedPlans

/-- How vertices are numbered: variables first, then values, then operators. -/
structure VertexLayout where
  vars : Nat
  /-- The number of the first value of each variable, and of all values at the end. -/
  offsets : Array Nat
  operators : Nat
deriving DecidableEq, Repr

namespace VertexLayout

/-- The numbering of a task. -/
def ofTask (t : Task) : VertexLayout :=
  ⟨t.vars.size, t.valueOffsets, t.operators.size⟩

/-- The number of all values. -/
def values (l : VertexLayout) : Nat :=
  l.offsets.back?.getD 0

/-- The vertex of a fact. -/
def factVertex (l : VertexLayout) (f : Fact) : Nat :=
  l.vars + l.offsets.getD f.var 0 + f.value

/-- The vertex of an operator. -/
def operatorVertex (l : VertexLayout) (op : Nat) : Nat :=
  l.vars + l.values + op

/-- The number of vertices. -/
def size (l : VertexLayout) : Nat :=
  l.vars + l.values + l.operators

end VertexLayout

/-- The kinds of edges. -/
inductive Link where
  | value
  | precondition
  | effect
deriving DecidableEq, Repr

/-- The label of a kind of edges. -/
def Link.label : Link → Nat
  | value => 0
  | precondition => 1
  | effect => 2

namespace Task

/-- The facts of the task by variable and value. -/
def facts (t : Task) : List Fact :=
  t.vars.toList.zipIdx.flatMap fun (v, var) =>
    (List.range v.values.length).map fun value => ⟨var, value⟩

/-- The colour key of a fact: whether it belongs to the goal and whether it holds initially. -/
def factKey (t : Task) (fixInitial : Bool) (f : Fact) : List Nat :=
  [1, 0, if f ∈ t.goal then 1 else 0, if fixInitial && f.holds t.initial then 1 else 0]

/-- The colour keys of all vertices. -/
def colorKeys (t : Task) (fixInitial : Bool) : List (List Nat) :=
  t.vars.toList.map (fun _ => [0, 0, 0, 0]) ++ t.facts.map (t.factKey fixInitial) ++
    t.operators.toList.map fun o => [2, o.cost.toNat, 0, 0]

/-- The edges between variables and their values, then those of the operators. -/
def descriptionEdges (t : Task) : List (Nat × Nat × Nat) :=
  let l := VertexLayout.ofTask t
  let values := t.facts.map fun f => (f.var, l.factVertex f, Link.value.label)
  let operators := t.operators.toList.zipIdx.flatMap fun (o, op) =>
    o.preconditions.map (fun f => (l.operatorVertex op, l.factVertex f, Link.precondition.label)) ++
      o.effects.map fun f => (l.operatorVertex op, l.factVertex f, Link.effect.label)
  values ++ operators

/-- The description graph, whose automorphisms are the relabellings of the task. -/
def descriptionGraph (t : Task) (fixInitial : Bool) : ColoredGraph :=
  .ofEdges (denseRanks (t.colorKeys fixInitial)) t.descriptionEdges

end Task

end RankedPlans
