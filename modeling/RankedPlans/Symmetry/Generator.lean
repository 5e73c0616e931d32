import RankedPlans.Symmetry.Description

/-!
Symmetries of a task: a permutation of the variables, a map of values for each variable and a
permutation of the operators, acting on facts, states and plans.
-/

namespace RankedPlans

structure Generator where
  /-- The image of each variable. -/
  vars : Array Nat
  /-- The image of each value of each variable, a value of the variable's image. -/
  values : Array (Array Nat)
  /-- The image of each operator. -/
  operators : Array Nat
  /-- The operator that has each operator as its image. -/
  inverse : Array Nat
deriving DecidableEq, Repr, Inhabited

namespace Generator

/-- The symmetry that a permutation of the vertices of the description graph stands for. -/
def ofVertices (t : Task) (image : Array Nat) : Generator :=
  let l := VertexLayout.ofTask t
  let send := fun v => image.getD v 0
  let vars := (Array.range l.vars).map send
  let values := t.vars.mapIdx fun var v =>
    (Array.range v.values.length).map fun value =>
      send (l.factVertex ⟨var, value⟩) - l.factVertex ⟨vars.getD var 0, 0⟩
  let operators := (Array.range l.operators).map fun op =>
    send (l.operatorVertex op) - l.operatorVertex 0
  let inverse := operators.toList.zipIdx.foldl (fun inv (op', op) => inv.setIfInBounds op' op)
    (Array.replicate l.operators 0)
  ⟨vars, values, operators, inverse⟩

/-- Whether a variable or a value is not its own image. -/
def movesState (g : Generator) : Bool :=
  g.vars != Array.range g.vars.size ||
    g.values.any fun vs => vs != Array.range vs.size

/-- Whether an operator is not its own image. -/
def movesOperators (g : Generator) : Bool :=
  g.operators != Array.range g.operators.size

/-- The image of a fact. -/
def mapFact (g : Generator) (f : Fact) : Fact :=
  ⟨g.vars.getD f.var 0, (g.values.getD f.var #[]).getD f.value 0⟩

/-- The image of a state. -/
def mapState (g : Generator) (s : State) : State :=
  s.toList.zipIdx.foldl (fun image (value, var) =>
    let f := g.mapFact ⟨var, value⟩
    image.setIfInBounds f.var f.value) (Array.replicate s.size 0)

/-- The image of an operator. -/
def mapOperator (g : Generator) (op : Nat) : Nat :=
  g.operators.getD op 0

/-- The operator whose image is the given one. -/
def unmapOperator (g : Generator) (op : Nat) : Nat :=
  g.inverse.getD op 0

/-- The image of a plan. -/
def mapPlan (g : Generator) (plan : Plan) : Plan :=
  plan.map g.mapOperator

/-- The images of some facts in ascending order. -/
def mapFacts (g : Generator) (facts : List Fact) : List Fact :=
  Fact.sort (facts.map g.mapFact)

/-- Whether the symmetry keeps the operators with their costs, the goal and, if asked, the initial
state of a task. -/
def preserves (g : Generator) (t : Task) (fixInitial : Bool) : Bool :=
  (List.range t.operators.size).all (fun op =>
    let o := t.operator op
    let o' := t.operator (g.mapOperator op)
    o'.cost == o.cost && g.mapFacts o.preconditions == o'.preconditions &&
      g.mapFacts o.effects == o'.effects) &&
  g.mapFacts t.goal == t.goal && (!fixInitial || g.mapState t.initial == t.initial)

end Generator

end RankedPlans
