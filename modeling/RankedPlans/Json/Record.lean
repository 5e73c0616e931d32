import RankedPlans.Json.Reader

/-!
Typed readers for JSON records. A record is an object of named fields or the array of its fields in
their order; fields that it does not have are passed over, and a field given twice is refused.
-/

namespace RankedPlans.Json

/-- When a field may be missing. -/
inductive Presence where
  /-- The field is always given. -/
  | required
  /-- An object may leave the field out; an array may not. -/
  | optional
  /-- The field may always be left out. -/
  | defaulted
deriving DecidableEq, Repr

/-- A field of a record. -/
structure Field where
  name : String
  presence : Presence

namespace Written

/-- The members of an object that are fields, by name. -/
def knownMembers? (fields : List Field) :
    List (List Piece × Written) → Option (List (String × Written))
  | [] => some []
  | (key, v) :: rest => do
    let key ← Piece.text? key
    let found ← knownMembers? fields rest
    if fields.any (·.name = key) then
      if found.any (·.1 = key) then none else some ((key, v) :: found)
    else some found

/-- What a record gives for each field, in the order of the fields. -/
def fields? (fields : List Field) : Written → Option (List (Option Written))
  | .object members => do
    let found ← knownMembers? fields members
    fields.mapM fun f =>
      match found.lookup f.name, f.presence with
      | none, .required => none
      | v, _ => some v
  | .array items =>
    if fields.length < items.length then none
    else
      fields.zipIdx.mapM fun (f, i) =>
        match items[i]?, f.presence with
        | some v, _ => some (some v)
        | none, .defaulted => some none
        | none, _ => none
  | _ => none

/-- An integer of a range. -/
def intWithin? (low high : Int) : Written → Option Int
  | .number n => n.integer?.filter fun i => low ≤ i ∧ i ≤ high
  | _ => none

/-- A natural number of 32 bits. -/
def nat32? (v : Written) : Option Nat :=
  (v.intWithin? 0 nat32Max).map Int.toNat

/-- A natural number of 64 bits. -/
def nat64? (v : Written) : Option Nat :=
  (v.intWithin? 0 nat64Max).map Int.toNat

/-- A signed integer of 64 bits. -/
def int64? (v : Written) : Option Int :=
  v.intWithin? int64Min int64Max

/-- Any number in double precision. -/
def float? : Written → Option Float
  | .number n =>
    match n.integer? with
    | some i => some (Float.ofInt i)
    | none => n.float?
  | _ => none

def bool? : Written → Option Bool
  | .bool b => some b
  | _ => none

def string? : Written → Option String
  | .string pieces => Piece.text? pieces
  | _ => none

def list? {α : Type} (item? : Written → Option α) : Written → Option (List α)
  | .array items => items.mapM item?
  | _ => none

/-- A value, or null for its absence. -/
def orNull? {α : Type} (value? : Written → Option α) : Written → Option (Option α)
  | .null => some none
  | v => (value? v).map some

/-- One name of a list: a string, or an object with null under that one name. -/
def choice? {α : Type} (choices : List (String × α)) : Written → Option α
  | .string pieces => do choices.lookup (← Piece.text? pieces)
  | .object [(key, .null)] => do choices.lookup (← Piece.text? key)
  | _ => none

end Written

/-- Reads a field that is given. -/
def required? {α : Type} (value? : Written → Option α) (field : Option Written) : Option α :=
  field.bind value?

/-- Reads a field whose absence and null are one. -/
def optional? {α : Type} (value? : Written → Option α) (field : Option Written) :
    Option (Option α) :=
  match field with
  | none => some none
  | some v => v.orNull? value?

/-- Reads a field that has a value of its own when it is missing. -/
def defaulted? {α : Type} (value? : Written → Option α) (default : α) (field : Option Written) :
    Option α :=
  match field with
  | none => some default
  | some v => value? v

end RankedPlans.Json
