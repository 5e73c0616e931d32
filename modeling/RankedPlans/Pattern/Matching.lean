import RankedPlans.Pattern.Basic

/-!
Matching of regular expressions. A set of positions of a text is a number whose bits are its members, and
an expression on a text is a `Move`: it leads from a set of positions, where matches begin, to the set of
positions where they end. For repetitions without bound a table holds where each position leads, so that
the work is polynomial however they lie in each other.
-/

namespace RankedPlans

namespace Positions

/-- The positions of the first set that are not in the second. -/
def minus (a b : Nat) : Nat :=
  a - (a &&& b)

/-- The set without its least position. -/
def dropLeast (a : Nat) : Nat :=
  a &&& (a - 1)

/-- The least position of a set that is not empty. -/
def least (a : Nat) : Nat :=
  (minus a (dropLeast a)).log2

theorem minus_le (a b : Nat) : minus a b ≤ a :=
  Nat.sub_le ..

theorem dropLeast_lt {a : Nat} (h : a ≠ 0) : dropLeast a < a := by
  have : dropLeast a ≤ a - 1 := Nat.and_le_right
  omega

/-- Adds to `found` where the positions of a set lead. Where a position leads, all that is reached from
there is in the table too, so positions that were found need no second look. -/
def spread (table : Array Nat) (here found : Nat) : Nat :=
  if here = 0 then found
  else
    let found := found ||| table.getD (least here) 0
    spread table (minus (dropLeast here) found) found
termination_by here
decreasing_by
  rename_i h
  exact Nat.lt_of_le_of_lt (minus_le ..) (dropLeast_lt h)

/-- Where each of the positions up to `last` leads by any number of steps. No step leads back. -/
def closure (last : Nat) (step : Nat → Nat) : Array Nat :=
  (List.range (last + 1)).foldr
    (fun i table => table.setIfInBounds i (spread table (step (1 <<< i)) (1 <<< i)))
    (Array.replicate (last + 1) 0)

/-- Where exactly so many steps lead. -/
def exactly (step : Nat → Nat) : Nat → Nat → Nat
  | 0, here => here
  | count + 1, here =>
    let next := step here
    if next = here then here else exactly step count next

/-- What is found by at most so many further steps from the positions of `fresh`. -/
def atMost (step : Nat → Nat) : Nat → Nat → Nat → Nat
  | 0, _, found => found
  | count + 1, fresh, found =>
    let next := minus (step fresh) found
    if next = 0 then found else atMost step count next (found ||| next)

end Positions

namespace Pattern

/-- An expression on one text. -/
inductive Move where
  /-- Stays at the allowed positions. -/
  | stay (allowed : Nat)
  /-- Goes on by one character from the allowed positions. -/
  | advance (allowed : Nat)
  | concat (first second : Move)
  | either (first second : Move)
  /-- So many times, and up to so many times more. -/
  | counted (body : Move) (times more : Nat)
  /-- Any number of times, by a table of where each position leads. -/
  | closure (table : Array Nat)

/-- The positions where matches end that begin at the given ones. -/
def Move.image : Move → Nat → Nat
  | stay allowed, here => here &&& allowed
  | advance allowed, here => (here &&& allowed) <<< 1
  | concat p q, here => q.image (p.image here)
  | either p q, here => p.image here ||| q.image here
  | counted p times more, here =>
    let here := Positions.exactly p.image times here
    Positions.atMost p.image more here here
  | closure table, here => Positions.spread table here 0

/-- All positions of a text of this length. -/
def allPositions (length : Nat) : Nat :=
  (1 <<< (length + 1)) - 1

/-- A table of the characters of a text with the positions before each of them. -/
abbrev Occurrences := List (Char × Nat)

/-- Adds a position of a character. -/
def Occurrences.add (c : Char) (i : Nat) : Occurrences → Occurrences
  | [] => [(c, 1 <<< i)]
  | (d, here) :: later => if d = c then (d, here ||| 1 <<< i) :: later else (d, here) :: add c i later

/-- The table of a text. -/
def Occurrences.ofText (text : List Char) : Occurrences :=
  text.zipIdx.foldl (fun table (c, i) => table.add c i) []

/-- The positions before the characters that pass a test. -/
def Occurrences.passing (table : Occurrences) (ok : Char → Bool) : Nat :=
  table.foldl (fun found (c, here) => if ok c then found ||| here else found) 0

/-- The expression on a text of this length and these characters. -/
def on (length : Nat) (table : Occurrences) : Pattern → Move
  | empty => .stay (allPositions length)
  | any => .advance (table.passing (· ≠ '\n'))
  | literal c => .advance (table.passing (· = c))
  | oneOf k => .advance (table.passing k.accepts)
  | start => .stay 1
  | stop => .stay (1 <<< length)
  | wordStart =>
    let after := table.passing Text.isWordChar
    .stay (Positions.minus after (after <<< 1))
  | wordStop =>
    let after := table.passing Text.isWordChar
    .stay (Positions.minus (after <<< 1) after)
  | group _ p => on length table p
  | concat p q => .concat (on length table p) (on length table q)
  | either p q => .either (on length table p) (on length table q)
  | repeated p least most _ =>
    match most with
    | some m => .counted (on length table p) least (m - least)
    | none =>
      let body := on length table p
      .concat (.counted body least 0) (.closure (Positions.closure length body.image))

/-- Whether the expression matches some part of the text. -/
def matchesWithin (p : Pattern) (text : String) : Bool :=
  let cs := text.toList
  (p.on cs.length (.ofText cs)).image (allPositions cs.length) ≠ 0

end Pattern

end RankedPlans
