import RankedPlans.Digest.Basic
import RankedPlans.Json.Bytes
import RankedPlans.Json.Record
import RankedPlans.Task.Execution

/-!
Task records: the JSON form of a task, its canonical text and digest, and the reading of such a text.
-/

namespace RankedPlans

namespace Fact

def toJson (f : Fact) : Json :=
  .object [("var", .integer f.var), ("value", .integer f.value)]

def read? (w : Json.Written) : Option Fact := do
  match ← w.fields? [⟨"var", .required⟩, ⟨"value", .required⟩] with
  | [var, value] =>
    return ⟨← Json.required? Json.Written.nat32? var, ← Json.required? Json.Written.nat32? value⟩
  | _ => none

end Fact

namespace Variable

def toJson (v : Variable) : Json :=
  .object [("name", .string v.name), ("values", .array (v.values.map .string))]

def read? (w : Json.Written) : Option Variable := do
  match ← w.fields? [⟨"name", .required⟩, ⟨"values", .required⟩] with
  | [name, values] =>
    let name ← Json.required? Json.Written.string? name
    let values ← Json.required? (Json.Written.list? Json.Written.string?) values
    return ⟨name, values⟩
  | _ => none

end Variable

namespace Operator

def toJson (o : Operator) : Json :=
  .object [("name", .string o.name), ("cost", .integer o.cost),
    ("preconditions", .array (o.preconditions.map Fact.toJson)),
    ("effects", .array (o.effects.map Fact.toJson))]

def read? (w : Json.Written) : Option Operator := do
  let fields := [⟨"name", .required⟩, ⟨"cost", .required⟩, ⟨"preconditions", .required⟩,
    ⟨"effects", .required⟩]
  match ← w.fields? fields with
  | [name, cost, preconditions, effects] =>
    let name ← Json.required? Json.Written.string? name
    let cost ← Json.required? Json.Written.int64? cost
    let preconditions ← Json.required? (Json.Written.list? Fact.read?) preconditions
    let effects ← Json.required? (Json.Written.list? Fact.read?) effects
    return ⟨name, cost, preconditions, effects⟩
  | _ => none

end Operator

namespace Draft

def toJson (d : Draft) : Json :=
  .object [("variables", .array (d.vars.toList.map Variable.toJson)),
    ("operators", .array (d.operators.toList.map Operator.toJson)),
    ("initial", .array (d.initial.toList.map fun (n : Nat) => .integer n)),
    ("goal", .array (d.goal.map Fact.toJson))]

def read? (w : Json.Written) : Option Draft := do
  let fields := [⟨"variables", .required⟩, ⟨"operators", .required⟩, ⟨"initial", .required⟩,
    ⟨"goal", .required⟩]
  match ← w.fields? fields with
  | [vars, operators, initial, goal] =>
    let vars ← Json.required? (Json.Written.list? Variable.read?) vars
    let operators ← Json.required? (Json.Written.list? Operator.read?) operators
    let initial ← Json.required? (Json.Written.list? Json.Written.nat32?) initial
    let goal ← Json.required? (Json.Written.list? Fact.read?) goal
    return ⟨vars.toArray, operators.toArray, initial.toArray, goal⟩
  | _ => none

end Draft

/-- Why a text is not a task. -/
inductive Task.Unreadable where
  /-- The text is not JSON or does not fit the record. -/
  | malformed
  | faulty (fault : Fault)

namespace Task

def toJson (t : Task) : Json :=
  t.toDraft.toJson

/-- The canonical text. All numbers of a task are integers. -/
def canonical (t : Task) : String :=
  t.toJson.sortKeys.text

/-- The digest of the canonical text. -/
def digest (t : Task) : ContentHash :=
  .ofText .task t.canonical

/-- The task at the front of a text, which has to fill it. Its faults come before what is after it. -/
def ofLeading : Option (Json.Written × List Char) → Except Unreadable Task
  | none => .error .malformed
  | some (w, rest) =>
    match Draft.read? w with
    | none => .error .malformed
    | some draft =>
      match ofDraft draft with
      | .error fault => .error (.faulty fault)
      | .ok t => if Json.Written.onlyBlanks rest then .ok t else .error .malformed

/-- The task that a text holds. -/
def parse (text : String) : Except Unreadable Task :=
  ofLeading (Json.Written.leading? text.toList)

/-- The task that some bytes hold. -/
def ofBytes (bytes : List UInt8) : Except Unreadable Task :=
  ofLeading (Json.Written.leadingBytes? bytes)

end Task

end RankedPlans
