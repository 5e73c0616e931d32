import RankedPlans.Number.Bounds
import RankedPlans.Task.Basic

/-!
Validation of drafts. `Draft.fault?` finds the first fault of a normalized draft in a fixed order, and
`Task` holds the drafts without one, so that whoever has a task may rely on its indices.
-/

namespace RankedPlans

/-- The list of facts that a fault lies in. -/
inductive Place where
  | initialState
  | goal
  | precondition (operator : String)
  | effect (operator : String)
deriving DecidableEq, Repr

/-- What a draft can have too many of. -/
inductive Population where
  | vars
  | operators
deriving DecidableEq, Repr

/-- Why a draft is not a task. -/
inductive Fault where
  | noVariables
  | tooMany (what : Population) (count : Nat)
  | emptyDomain (var : Nat) (name : String)
  | initialArity (expected got : Nat)
  | unknownVariable (place : Place) (var : Nat)
  | unknownValue (place : Place) (var value : Nat)
  | repeatedVariable (place : Place) (var : Nat)
  | negativeCost (operator : String) (cost : Int)
deriving DecidableEq, Repr

/-- The name of a list of facts in messages. -/
def Place.describe : Place → String
  | initialState => "initial state"
  | goal => "goal"
  | precondition operator => s!"operator {operator} precondition"
  | effect operator => s!"operator {operator} effect"

def Population.describe : Population → String
  | vars => "variables"
  | operators => "operators"

/-- The wording of a fault. -/
def Fault.message : Fault → String
  | noVariables => "task has no variables"
  | tooMany what count => "too many " ++ what.describe ++ s!": {count}"
  | emptyDomain var name => s!"variable {var} ({name}) has an empty domain"
  | initialArity expected got => s!"initial state has {got} values, task has {expected} variables"
  | unknownVariable place var => place.describe ++ s!": variable {var} out of range"
  | unknownValue place var value =>
    place.describe ++ s!": value {value} out of range for variable {var}"
  | repeatedVariable place var => place.describe ++ s!": variable {var} appears more than once"
  | negativeCost operator cost => s!"operator {operator} has negative cost {cost}"

/-- A fact without variable or value. -/
def Fact.fault? (vars : Array Variable) (place : Place) (f : Fact) : Option Fault :=
  match vars[f.var]? with
  | none => some (.unknownVariable place f.var)
  | some v =>
    if v.values.length ≤ f.value then some (.unknownValue place f.var f.value) else none

/-- The first fault of a list of facts that follows a fact of the variable `previous`. In ascending
order the facts of one variable are neighbours. -/
def factFault? (vars : Array Variable) (place : Place) (previous : Option Nat) :
    List Fact → Option Fault
  | [] => none
  | f :: rest =>
    (f.fault? vars place).or <|
      if previous = some f.var then some (.repeatedVariable place f.var)
      else factFault? vars place (some f.var) rest

namespace Draft

/-- The greatest number of variables or operators: indices have 32 bits. -/
def countLimit : Nat := nat32Max

/-- No variables, or too many variables or operators. -/
def sizeFault? (d : Draft) : Option Fault :=
  if d.vars.size = 0 then some .noVariables
  else if countLimit < d.vars.size then some (.tooMany .vars d.vars.size)
  else if countLimit < d.operators.size then some (.tooMany .operators d.operators.size)
  else none

/-- The first variable without values. -/
def domainFault? (d : Draft) : Option Fault :=
  d.vars.toList.zipIdx.findSome? fun (v, i) =>
    if v.values = [] then some (.emptyDomain i v.name) else none

/-- The initial state as a list of facts. -/
def initialFacts (d : Draft) : List Fact :=
  d.initial.toList.zipIdx.map fun (value, var) => ⟨var, value⟩

/-- An initial state that does not give each variable one of its values. -/
def initialFault? (d : Draft) : Option Fault :=
  if d.initial.size ≠ d.vars.size then some (.initialArity d.vars.size d.initial.size)
  else d.initialFacts.findSome? (Fact.fault? d.vars .initialState)

/-- A negative cost, or a fault of the preconditions or effects. -/
def operatorFault? (d : Draft) (o : Operator) : Option Fault :=
  if o.cost < 0 then some (.negativeCost o.name o.cost)
  else
    (factFault? d.vars (.precondition o.name) none o.preconditions).or
      (factFault? d.vars (.effect o.name) none o.effects)

/-- The first fault: of the sizes, the domains, the initial state, the goal and then the operators in
their order. -/
def fault? (d : Draft) : Option Fault :=
  d.sizeFault?.or <| d.domainFault?.or <| d.initialFault?.or <|
    (factFault? d.vars .goal none d.goal).or <| d.operators.toList.findSome? d.operatorFault?

end Draft

/-- A draft in normal form without a fault. -/
structure Task extends Draft where
  normalized : toDraft.normalize = toDraft
  faultless : toDraft.fault? = none
deriving DecidableEq

namespace Task

/-- The task of a draft: its normal form, if that has no fault. -/
def ofDraft (d : Draft) : Except Fault Task :=
  match h : d.normalize.fault? with
  | some fault => .error fault
  | none => .ok ⟨d.normalize, d.normalize_normalize, h⟩

end Task

end RankedPlans
