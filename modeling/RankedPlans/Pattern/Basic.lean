import RankedPlans.Pattern.CharClass
import RankedPlans.Text.Word

/-!
Regular expressions over characters. `Pattern.Spans` says which parts of a text an expression matches.
`Pattern.nesting` counts how deeply the groups, classes, repetitions, sequences and choices of an
expression lie in each other.
-/

namespace RankedPlans

inductive Pattern where
  /-- The empty text. -/
  | empty
  /-- Any character but a line feed. -/
  | any
  | literal (c : Char)
  | oneOf (k : CharClass)
  /-- The start of the text. -/
  | start
  /-- The end of the text. -/
  | stop
  /-- A place where a word begins. -/
  | wordStart
  /-- A place where a word ends. -/
  | wordStop
  /-- An expression in parentheses, whose part of the text may be kept apart. -/
  | group (captures : Bool) (body : Pattern)
  | concat (first second : Pattern)
  | either (first second : Pattern)
  /-- From `least` up to `most` matches in a row, without upper bound if `most` is absent. Whether it is
  greedy says which of several matches is preferred, and not what matches. -/
  | repeated (body : Pattern) (least : Nat) (most : Option Nat) (greedy : Bool)
deriving DecidableEq, Repr, Inhabited

namespace Pattern

/-- Whether a character that words are made of stands after a position. -/
def wordAfter (text : List Char) (i : Nat) : Bool :=
  text[i]?.any Text.isWordChar

/-- Whether a character that words are made of stands before a position. -/
def wordBefore (text : List Char) (i : Nat) : Bool :=
  0 < i && wordAfter text (i - 1)

mutual

/-- The expression matches the part of the text between two positions. -/
inductive Spans (text : List Char) : Pattern → Nat → Nat → Prop where
  | empty {i} : i ≤ text.length → Spans text .empty i i
  | any {i c} : text[i]? = some c → c ≠ '\n' → Spans text .any i (i + 1)
  | literal {i c} : text[i]? = some c → Spans text (.literal c) i (i + 1)
  | oneOf {k : CharClass} {i c} : text[i]? = some c → k.accepts c = true →
      Spans text (.oneOf k) i (i + 1)
  | start : Spans text .start 0 0
  | stop : Spans text .stop text.length text.length
  | wordStart {i} : wordBefore text i = false → wordAfter text i = true → Spans text .wordStart i i
  | wordStop {i} : wordBefore text i = true → wordAfter text i = false → Spans text .wordStop i i
  | group {captures p i j} : Spans text p i j → Spans text (.group captures p) i j
  | concat {p q i j k} : Spans text p i j → Spans text q j k → Spans text (.concat p q) i k
  | left {p q i j} : Spans text p i j → Spans text (.either p q) i j
  | right {p q i j} : Spans text q i j → Spans text (.either p q) i j
  | repeated {p least most greedy count i j} : least ≤ count → (∀ m ∈ most, count ≤ m) →
      SpansTimes text p count i j → Spans text (.repeated p least most greedy) i j

/-- So many matches of the expression follow each other between two positions. -/
inductive SpansTimes (text : List Char) : Pattern → Nat → Nat → Nat → Prop where
  | zero {p i} : i ≤ text.length → SpansTimes text p 0 i i
  | succ {p count i j k} : Spans text p i j → SpansTimes text p count j k →
      SpansTimes text p (count + 1) i k

end

/-- The expression for several expressions one after the other. -/
def inRow : List Pattern → Pattern
  | [] => empty
  | [p] => p
  | p :: rest => concat p (inRow rest)

/-- What an expression is the rest of. -/
inductive Link where
  | whole
  | sequence
  | choice
deriving DecidableEq, Repr

/-- How many groups, classes, repetitions, sequences and choices lie in each other at most. A sequence
counts once, however many expressions follow each other in it, and so does a choice. -/
def nesting : Link → Pattern → Nat
  | _, oneOf k => k.nesting
  | _, group _ p => nesting .whole p + 1
  | _, repeated p _ _ _ => nesting .whole p + 1
  | link, concat p q =>
    max (nesting .whole p) (nesting .sequence q) + if link = .sequence then 0 else 1
  | link, either p q =>
    max (nesting .whole p) (nesting .choice q) + if link = .choice then 0 else 1
  | _, _ => 0

end Pattern

end RankedPlans
