import RankedPlans.Json.Written
import RankedPlans.Text.Utf8

/-!
JSON read from bytes. All that gives a text its shape is ASCII, so bytes that are not text throughout
can still be well formed: within a string they become stray pieces, which only matter to those who
read that string.
-/

namespace RankedPlans.Json

namespace Piece

/-- The pieces of a run of bytes. -/
def ofBytes (bytes : List UInt8) : List Piece :=
  (Utf8.decode bytes).map fun
    | some c => char c
    | none => stray

/-- Reads the characters of pieces as single bytes, of which `run` holds those just before in reverse
order. -/
def regroup (run : List UInt8) : List Piece → List Piece
  | [] => ofBytes run.reverse
  | char c :: rest => regroup (UInt8.ofNat c.toNat :: run) rest
  | p :: rest => ofBytes run.reverse ++ p :: regroup [] rest

end Piece

namespace Written

mutual

/-- Regroups the pieces of every string of a tree. -/
def regroup : Written → Written
  | string pieces => string (Piece.regroup [] pieces)
  | array items => array (regroupItems items)
  | object members => object (regroupMembers members)
  | other => other

/-- `regroup` on each item of an array. -/
def regroupItems : List Written → List Written
  | [] => []
  | v :: rest => regroup v :: regroupItems rest

/-- `regroup` on the key and the value of each member of an object. -/
def regroupMembers : List (List Piece × Written) → List (List Piece × Written)
  | [] => []
  | (key, v) :: rest => (Piece.regroup [] key, regroup v) :: regroupMembers rest

end

/-- The tree of the value at the front of some bytes, and what is after it. Bytes that are not a text are
read as one character each, and the strings put together afterwards. -/
def leadingBytes? (bytes : List UInt8) : Option (Written × List Char) :=
  match Utf8.text? bytes with
  | some text => leading? text.toList
  | none => (leading? (bytes.map fun b => Char.ofNat b.toNat)).map fun (v, rest) => (regroup v, rest)

/-- The tree of bytes that hold one value between optional blanks. -/
def ofBytes? (bytes : List UInt8) : Option Written := do
  let (v, rest) ← leadingBytes? bytes
  if onlyBlanks rest then some v else none

end Written

end RankedPlans.Json
