import RankedPlans.Pattern.Form
import RankedPlans.Text.Utf8Ranges

/-!
How many bytes of memory an automaton for a form takes that reads the encoded text byte by byte. The form
is laid out in full, a repetition as often as its bounds say. The automaton reads the text forward or
backward; `Pattern.isModest` bounds both.
-/

namespace RankedPlans.Pattern

/-- The memory of a part of an automaton. -/
structure Footprint where
  bytes : Nat
  /-- What it takes to lead on from its last state: one more branch if that is a fork, and else nothing. -/
  exit : Nat := 0
deriving DecidableEq, Repr

namespace Footprint

/-- The memory of a state. -/
def state : Nat := 32

/-- The memory of one of several byte ranges that lead on from a state. -/
def transition : Nat := 8

/-- The memory of one of the states that a fork leads to. -/
def branch : Nat := 4

/-- A single state. -/
def point : Footprint :=
  ⟨state, 0⟩

/-- The memory with the way out. -/
def total (f : Footprint) : Nat :=
  f.bytes + f.exit

/-- One part after the other. -/
def inRow : List Footprint → Footprint
  | [] => point
  | [f] => f
  | f :: rest =>
    let later := inRow rest
    ⟨f.total + later.bytes, later.exit⟩

/-- So many copies of a part, one after the other. -/
def copies (f : Footprint) (n : Nat) : Footprint :=
  if n = 0 then point else ⟨(n - 1) * f.total + f.bytes, f.exit⟩

/-- A fork to several parts, which lead to one state. -/
def choice (fs : List Footprint) : Footprint :=
  ⟨fs.foldl (fun n f => n + branch + f.total) (2 * state), 0⟩

/-- A part in a loop. What can match the empty text is entered by a second fork, past which the loop may be
left out. -/
def loop (f : Footprint) (neverEmpty : Bool) : Footprint :=
  if neverEmpty then ⟨f.total + state + branch, branch⟩
  else ⟨f.total + 3 * state + 4 * branch, 0⟩

/-- Copies of a part as the bounds of a repetition say. -/
def repeated (f : Footprint) (neverEmpty : Bool) (least : Nat) (most : Option Nat) : Footprint :=
  match least, most with
  | 0, none => f.loop neverEmpty
  | least, none => ⟨(least - 1) * f.total + f.total + state + branch, branch⟩
  | 0, some 1 => ⟨f.total + 2 * state + 2 * branch, 0⟩
  | least, some most =>
    if least = most then f.copies least
    else ⟨(f.copies least).total + state + (most - least) * (f.total + state + 2 * branch), 0⟩

/-- The states of a tree of byte ranges, each given by what follows it, with the sequences in order. The
second argument bounds the length of the sequences. -/
def treeStates : Nat → List (List Utf8.ByteRange) → List (List (List Utf8.ByteRange))
  | 0, _ => []
  | length + 1, seqs =>
    let heads := (seqs.filterMap List.head?).eraseDups
    let tails := heads.map fun r => seqs.filterMap fun s => if s.head? = some r then s.tail? else none
    seqs :: (tails.filter (· ≠ [[]])).flatMap (treeStates length)

/-- A character in one of the ranges. Forward, parts of the tree of byte ranges that are alike are shared;
backward, the beginnings of the sequences are. -/
def oneOf (backward : Bool) (ranges : CodeRanges) : Footprint :=
  if ranges.all fun r => r.2 < 0x80 then ⟨2 * state + ranges.length * transition, 0⟩
  else
    let seqs := ranges.flatMap fun r => Utf8.sequences r.1 r.2
    if backward then
      let starts := (seqs.flatMap fun s => (List.range s.length).map fun n => s.take (n + 1)).eraseDups
      ⟨2 * state + starts.length * state + seqs.length * branch, 0⟩
    else
      let states := (treeStates 4 seqs).eraseDups
      ⟨states.foldl
        (fun n seqs => n + state + (seqs.filterMap List.head?).eraseDups.length * transition) state, 0⟩

/-- The runs of words between empty ones. The empty words at the front count as one. -/
def chunks (words : List (List UInt8)) : List (List (List UInt8)) :=
  let split := (words.dropWhile List.isEmpty).foldr
    (fun w runs =>
      if w = [] then [] :: runs
      else
        match runs with
        | run :: later => (w :: run) :: later
        | [] => [[w]])
    [[]]
  if (words.headD []).isEmpty then [] :: split else split

/-- The states of a tree of words that have bytes left: a fork to each run of words between places where a
word ends, and for each run a state that leads on by the first bytes. The first argument bounds the
length of the words. -/
def wordStates : Nat → List (List UInt8) → Nat
  | 0, _ => 0
  | length + 1, words =>
    let runs := chunks words
    let heads := fun run : List (List UInt8) => (run.filterMap List.head?).eraseDups
    let below := fun run : List (List UInt8) =>
      (heads run).foldl
        (fun n b =>
          let tails := run.filterMap fun w => if w.head? = some b then w.tail? else none
          if tails.all List.isEmpty then n else n + wordStates length tails)
        0
    let own := fun run : List (List UInt8) =>
      match (heads run).length with
      | 0 => 0
      | 1 => state + branch
      | n => state + n * transition + branch
    runs.foldl (fun n run => n + own run + below run) (state + (runs.length - 1) * branch)

/-- A choice between several words, as a tree. -/
def words (ws : List (List UInt8)) : Footprint :=
  ⟨state + wordStates (ws.foldl (fun n w => max n w.length) 0) ws, 0⟩

end Footprint

namespace Form

/-- The bytes of a form that is a text, unless it is empty. -/
def word? : Form → Option (List UInt8)
  | text [] => none
  | text chars => some (chars.flatMap String.utf8EncodeChar)
  | _ => none

mutual

/-- How many characters a match has at least. Forms with a class that is empty have no such number. -/
def leastLength? : Form → Option Nat
  | text chars => some chars.length
  | oneOf ranges => if ranges = [] then none else some 1
  | start => some 0
  | stop => some 0
  | wordStart => some 0
  | wordStop => some 0
  | capture body => leastLength? body
  | concat items => (leastLengths? items).map fun lengths => lengths.foldl (· + ·) 0
  | either options => (leastLengths? options).bind List.min?
  | repeated body least _ _ => (leastLength? body).map (least * ·)

/-- `leastLength?` of every item of a list. -/
def leastLengths? : List Form → Option (List Nat)
  | [] => some []
  | f :: rest =>
    match leastLength? f, leastLengths? rest with
    | some n, some lengths => some (n :: lengths)
    | _, _ => none

end

/-- Whether a form is known to match no empty part of a text. -/
def neverEmpty (f : Form) : Bool :=
  f.leastLength?.any (0 < ·)

mutual

/-- Whether a form asks for the start of the text first, or backward for its end. -/
def anchored (backward : Bool) : Form → Bool
  | start => !backward
  | stop => backward
  | capture body => anchored backward body
  | concat items =>
    if backward then (anchoredFromEnd items).1 else anchoredFromStart items
  | either options => allAnchored backward options
  | repeated body least _ _ => 0 < least && anchored backward body
  | _ => false

/-- Whether a form of a list asks for the start of the text, where all before match empty parts only. -/
def anchoredFromStart : List Form → Bool
  | [] => false
  | f :: rest => anchored false f || (onlyEmpty f && anchoredFromStart rest)

/-- Whether a form of a list asks for the end of the text, where all after match empty parts only, and
whether all of them do. -/
def anchoredFromEnd : List Form → Bool × Bool
  | [] => (false, true)
  | f :: rest =>
    let (found, free) := anchoredFromEnd rest
    (found || (free && anchored true f), free && onlyEmpty f)

/-- `anchored` for every item of a list. -/
def allAnchored (backward : Bool) : List Form → Bool
  | [] => true
  | f :: rest => anchored backward f && allAnchored backward rest

end

mutual

/-- The memory of an automaton for a form. -/
def footprint (backward : Bool) : Form → Footprint
  | text chars =>
    match (chars.flatMap String.utf8EncodeChar).length with
    | 0 => .point
    | n => Footprint.point.copies n
  | oneOf ranges => .oneOf backward ranges
  | start => .point
  | stop => .point
  | wordStart => .point
  | wordStop => .point
  | capture body =>
    if backward then footprint backward body
    else ⟨2 * Footprint.state + (footprint backward body).total, 0⟩
  | concat items =>
    .inRow (if backward then (footprints backward items).reverse else footprints backward items)
  | either options =>
    match options.mapM word? with
    | some ws => .words (if backward then ws.map List.reverse else ws)
    | none => .choice (footprints backward options)
  | repeated body least most _ => (footprint backward body).repeated (neverEmpty body) least most

/-- The memory for each form of a list. -/
def footprints (backward : Bool) : List Form → List Footprint
  | [] => []
  | f :: rest => footprint backward f :: footprints backward rest

end

/-- The memory of a whole automaton. Unless the form begins with an anchor, a loop over any bytes comes
before it. Forward, the whole match is captured. -/
def memory (backward : Bool) (f : Form) : Nat :=
  let entry := if anchored backward f then Footprint.state else 3 * Footprint.state + 16
  let body := if backward then footprint backward f else footprint backward (capture f)
  entry + body.total + Footprint.state

end Form

/-- The most bytes that an automaton may take. -/
def memoryLimit : Nat := 0xA00000

/-- How many groups, classes, repetitions, sequences and choices may lie in each other. -/
def nestingLimit : Nat := 250

/-- Whether an expression keeps to the limits on nesting and memory. -/
def isModest (p : Pattern) : Bool :=
  nesting .whole p ≤ nestingLimit &&
    p.form.memory false ≤ memoryLimit && p.form.memory true ≤ memoryLimit

end RankedPlans.Pattern
