import RankedPlans.Sorting

/-!
Classes of characters: ranges of code points, and the operations by which the notation in brackets builds
them. Surrogates are no characters, so the code points before and after them are neighbours.
-/

namespace RankedPlans

/-- Ranges of code points. -/
abbrev CodeRanges := List (Nat × Nat)

namespace CodeRanges

/-- The greatest code point. -/
def last : Nat := 0x10FFFF

/-- The code point after another, past the surrogates. -/
def next (c : Nat) : Nat :=
  if c = 0xD7FF then 0xE000 else c + 1

/-- The code point before another, past the surrogates. -/
def previous (c : Nat) : Nat :=
  if c = 0xE000 then 0xD7FF else c - 1

/-- Joins a range with those after it that overlap or meet it, and those among each other. The ranges are
in ascending order of their starts. -/
def join : Nat × Nat → CodeRanges → CodeRanges
  | r, [] => [r]
  | (low, high), (low', high') :: rest =>
    if low' ≤ high + 1 then join (low, max high high') rest
    else (low, high) :: join (low', high') rest

/-- Ranges in ascending order that neither overlap nor meet. -/
def normal (ranges : CodeRanges) : CodeRanges :=
  match sortBy (fun a b => a.1 ≤ b.1) ranges with
  | [] => []
  | r :: rest => join r rest

/-- The range between two code points. Where only the surrogates lie between them, both ends of the range
have passed each other, and the range has the two code points. -/
def between (low high : Nat) : Nat × Nat :=
  (min (next low) (previous high), max (next low) (previous high))

/-- The gaps after a code point, between normal ranges and up to the last code point. -/
def gapsAfter (high : Nat) : CodeRanges → CodeRanges
  | [] => if high < last then [(next high, last)] else []
  | (low', high') :: rest => between high low' :: gapsAfter high' rest

/-- The gaps before, between and after normal ranges. -/
def complement : CodeRanges → CodeRanges
  | [] => [(0, last)]
  | (low, high) :: rest =>
    if 0 < low then (0, previous low) :: gapsAfter high rest else gapsAfter high rest

/-- What two lists of normal ranges have in common. -/
def meet (a b : CodeRanges) : CodeRanges :=
  a.flatMap fun r => b.filterMap fun s =>
    let (low, high) := (max r.1 s.1, min r.2 s.2)
    if low ≤ high then some (low, high) else none

/-- A range without some ranges in it, which are normal. -/
def cut (low high : Nat) : CodeRanges → CodeRanges
  | [] => if low ≤ high then [(low, high)] else []
  | (low', high') :: rest =>
    if low < low' then (low, previous low') :: cut (next high') high rest else cut (next high') high rest

/-- What is in normal ranges and not in others. -/
def minus (a b : CodeRanges) : CodeRanges :=
  a.flatMap fun r => cut r.1 r.2 (meet [r] b)

end CodeRanges

/-- An operation between two classes. -/
inductive ClassOperation where
  | intersection
  | difference
  | symmetricDifference
deriving DecidableEq, Repr

/-- A class of characters. -/
structure CharClass where
  ranges : CodeRanges
  /-- How deeply brackets, lists and operations lie in each other in its notation. -/
  nesting : Nat
deriving DecidableEq, Repr, Inhabited

namespace CharClass

/-- Whether a character is in the class. -/
def accepts (k : CharClass) (c : Char) : Bool :=
  k.ranges.any fun r => r.1 ≤ c.toNat && c.toNat ≤ r.2

/-- The characters from one to another. -/
def range (low high : Char) : CharClass :=
  ⟨[(low.toNat, high.toNat)], 0⟩

/-- The characters in one of several classes. Two or more of them are a list. -/
def union (ks : List CharClass) : CharClass :=
  ⟨CodeRanges.normal (ks.flatMap ranges),
    ks.foldl (fun n k => max n k.nesting) 0 + if ks.length ≤ 1 then 0 else 1⟩

/-- The characters that are not in the class. -/
def negate (k : CharClass) : CharClass :=
  { k with ranges := CodeRanges.complement k.ranges }

/-- The class in brackets. -/
def bracketed (k : CharClass) : CharClass :=
  { k with nesting := k.nesting + 1 }

/-- The class of an operation between two classes with normal ranges. -/
def operate (op : ClassOperation) (a b : CharClass) : CharClass :=
  let both := CodeRanges.meet a.ranges b.ranges
  let ranges :=
    match op with
    | .intersection => both
    | .difference => CodeRanges.minus a.ranges both
    | .symmetricDifference => CodeRanges.minus (CodeRanges.normal (a.ranges ++ b.ranges)) both
  ⟨ranges, max a.nesting b.nesting + 1⟩

end CharClass

end RankedPlans
