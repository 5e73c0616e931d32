/-!
Ranges of code points as sequences of byte ranges. A range is cut until all its characters are encoded
with one number of bytes and every byte ranges freely, which makes each piece a product of byte ranges.
-/

namespace RankedPlans.Utf8

/-- A range of bytes. -/
abbrev ByteRange := Nat × Nat

/-- The last code points of one, two and three bytes, and the ends of what comes before the surrogates and
of the surrogates. -/
def borders : List Nat :=
  [0x7F, 0x7FF, 0xD7FF, 0xDFFF, 0xFFFF]

/-- Where to cut a range so that its characters differ freely in their last bytes, of which a block of
this size holds all values. -/
def cutInBlock? (low high block : Nat) : Option Nat :=
  if low / block = high / block then none
  else if low % block ≠ 0 then some (low / block * block + (block - 1))
  else if high % block ≠ block - 1 then some (high / block * block - 1)
  else none

/-- The last code point of the first of two parts into which a range is cut. -/
def cut? (low high : Nat) : Option Nat :=
  match borders.find? fun b => low ≤ b && b < high with
  | some b => some b
  | none => if high < 0x80 then none else [0x40, 0x1000, 0x40000].findSome? (cutInBlock? low high)

/-- The byte ranges of characters from `low` to `high` that need no further cut. -/
def byteRanges (low high : Nat) : List ByteRange :=
  let first := String.utf8EncodeChar (Char.ofNat low)
  let last := String.utf8EncodeChar (Char.ofNat high)
  first.zipWith (fun a b => (a.toNat, b.toNat)) last

/-- The sequences of byte ranges of a range of code points, in ascending order. Surrogates have none. -/
def sequences (low high : Nat) : List (List ByteRange) :=
  match cut? low high with
  | some last =>
    if _h : low ≤ last ∧ last < high then sequences low last ++ sequences (last + 1) high else []
  | none => if 0xD800 ≤ low ∧ high < 0xE000 ∨ high < low then [] else [byteRanges low high]
termination_by high - low
decreasing_by all_goals omega

end RankedPlans.Utf8
