import RankedPlans.Json.Basic
import RankedPlans.Json.Written

/-!
JSON values read from text: surrogate pairs are joined, literals become numbers, and of members with
one key the last stays.
-/

namespace RankedPlans.Json

/-- The characters of a string. A unit of a surrogate pair has to stand beside its other half. -/
def Piece.decode? : List Piece → Option (List Char)
  | [] => some []
  | .char c :: rest => (decode? rest).map (c :: ·)
  | .stray :: _ => none
  | .unit high :: .unit low :: rest =>
    if 0xD800 ≤ high ∧ high < 0xDC00 then
      if 0xDC00 ≤ low ∧ low < 0xE000 then
        (decode? rest).map (Char.ofNat (0x10000 + (high - 0xD800) * 0x400 + (low - 0xDC00)) :: ·)
      else none
    else if 0xDC00 ≤ high ∧ high < 0xE000 then none
    else (decode? (.unit low :: rest)).map (Char.ofNat high :: ·)
  | .unit code :: rest =>
    if 0xD800 ≤ code ∧ code < 0xE000 then none
    else (decode? rest).map (Char.ofNat code :: ·)

/-- The string that the pieces write. -/
def Piece.text? (pieces : List Piece) : Option String :=
  (decode? pieces).map String.ofList

/-- How many arrays and objects may be nested. -/
def depthLimit : Nat := 127

/-- The value of a tree that nests at most `depth` arrays and objects. -/
def Written.json? : Nat → Written → Option Json
  | _, .null => some .null
  | _, .bool b => some (.bool b)
  | _, .number n =>
    match n.integer? with
    | some i => some (.integer i)
    | none => n.float?.map .float
  | _, .string pieces => (Piece.text? pieces).map .string
  | 0, .array _ => none
  | 0, .object _ => none
  | depth + 1, .array items => (items.mapM (json? depth)).map .array
  | depth + 1, .object members => do
    let values ← members.mapM fun (key, v) => do
      let key ← Piece.text? key
      let v ← json? depth v
      return (key, v)
    return .object (Entries.ofList values)

/-- The value of a text. -/
def parse? (text : String) : Option Json := do
  (← Written.parse? text).json? depthLimit

end RankedPlans.Json
