import RankedPlans.Numbering
import RankedPlans.Task.Execution

/-!
Tasks built from propositional atoms. Each atom becomes a variable with the values false and true, in
the order in which atoms are first declared. An action deletes before it adds, so an atom that it
both deletes and adds ends up true.
-/

namespace RankedPlans

/-- Declared atoms, actions over them, and the atoms that hold at the start and at the goal. -/
structure Strips where
  atoms : Numbering String := .empty
  operators : Array Operator := #[]
  init : List Nat := []
  goal : List Nat := []
deriving Inhabited

namespace Strips

/-- The index of a declared atom. -/
def atomId? (b : Strips) (name : String) : Option Nat :=
  b.atoms.id? name

/-- Declares an atom, unless there is one of that name, and gives its index. -/
def atom (b : Strips) (name : String) : Strips × Nat :=
  let ⟨atoms, operators, init, goal⟩ := b
  let (atoms, id, _) := atoms.insert name
  (⟨atoms, operators, init, goal⟩, id)

/-- The facts that the atoms have a value, each atom once. -/
def facts (atoms : List Nat) (value : Nat) : List Fact :=
  atoms.eraseDups.map fun a => ⟨a, value⟩

/-- Adds an action that needs `pre`, deletes `del` and then adds `add`. -/
def action (b : Strips) (name : String) (cost : Int) (pre add del : List Nat) : Strips :=
  let effects := facts (del.filter (· ∉ add)) 0 ++ facts add 1
  { b with operators := b.operators.push (Operator.normalize ⟨name, cost, facts pre 1, effects⟩) }

/-- Makes atoms hold at the start. -/
def addInit (b : Strips) (atoms : List Nat) : Strips :=
  { b with init := b.init ++ atoms }

/-- Makes atoms part of the goal. -/
def addGoal (b : Strips) (atoms : List Nat) : Strips :=
  { b with goal := b.goal ++ atoms }

/-- The task as a draft. Initial atoms that were never declared are passed over. -/
def draft (b : Strips) : Draft where
  vars := b.atoms.items.map fun name => ⟨name, ["not " ++ name, name]⟩
  operators := b.operators
  initial := b.init.foldl (fun s a => s.setIfInBounds a 1) (Array.replicate b.atoms.size 0)
  goal := facts b.goal 1

/-- The task over the declared atoms. -/
def build (b : Strips) : Except Fault Task :=
  Task.ofDraft b.draft

/-- A part of a description by names: an atom, or an action over atoms. -/
inductive Entry where
  | atom (name : String)
  | action (name : String) (cost : Int) (pre add del : List String)
deriving DecidableEq, Repr

/-- Declares atoms in order and gives their indices. -/
def atomList (b : Strips) : List String → Strips × List Nat
  | [] => (b, [])
  | name :: rest =>
    let (b, id) := b.atom name
    let (b, ids) := atomList b rest
    (b, id :: ids)

/-- Adds an entry and declares the atoms that it names first. -/
def addEntry (b : Strips) : Entry → Strips
  | .atom name => (b.atom name).1
  | .action name cost pre add del =>
    let (b, pre) := b.atomList pre
    let (b, add) := b.atomList add
    let (b, del) := b.atomList del
    b.action name cost pre add del

/-- The builder after some entries, with the atoms that hold at the start and at the goal. -/
def ofEntries (entries : List Entry) (init goal : List String) : Strips :=
  let b := entries.foldl addEntry {}
  let (b, init) := b.atomList init
  let (b, goal) := b.atomList goal
  (b.addInit init).addGoal goal

end Strips

end RankedPlans
