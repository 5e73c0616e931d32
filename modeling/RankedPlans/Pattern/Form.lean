import RankedPlans.Pattern.Basic

/-!
Regular expressions in simplified form: sequences and choices are flat, characters that follow each other
are one text, choices between characters or between classes are one class, and what all options of a
choice begin with stands before it. The form matches the same parts of a text as the expression.
-/

namespace RankedPlans.Pattern

inductive Form where
  /-- Some characters one after the other. -/
  | text (chars : List Char)
  /-- A character in one of the ranges. -/
  | oneOf (ranges : CodeRanges)
  | start
  | stop
  | wordStart
  | wordStop
  | capture (body : Form)
  | concat (items : List Form)
  | either (options : List Form)
  | repeated (body : Form) (least : Nat) (most : Option Nat) (greedy : Bool)
deriving Inhabited

namespace Form

mutual

/-- Whether two forms are written alike. No two captures are. -/
def same : Form → Form → Bool
  | text a, text b => a = b
  | oneOf a, oneOf b => a = b
  | start, start => true
  | stop, stop => true
  | wordStart, wordStart => true
  | wordStop, wordStop => true
  | concat a, concat b => sameEach a b
  | either a, either b => sameEach a b
  | repeated a least most greedy, repeated b least' most' greedy' =>
    least = least' && most = most' && greedy = greedy' && same a b
  | _, _ => false

/-- `same` on each pair of items of two lists of one length. -/
def sameEach : List Form → List Form → Bool
  | [], [] => true
  | a :: as, b :: bs => same a b && sameEach as bs
  | _, _ => false

end

mutual

/-- Whether the form matches empty parts of a text only. -/
def onlyEmpty : Form → Bool
  | text chars => chars.isEmpty
  | oneOf _ => false
  | start => true
  | stop => true
  | wordStart => true
  | wordStop => true
  | capture body => onlyEmpty body
  | concat items => allOnlyEmpty items
  | either options => allOnlyEmpty options
  | repeated body _ _ _ => onlyEmpty body

/-- `onlyEmpty` for every item of a list. -/
def allOnlyEmpty : List Form → Bool
  | [] => true
  | f :: rest => onlyEmpty f && allOnlyEmpty rest

end

/-- The items of a sequence. -/
def items : Form → List Form
  | concat fs => fs
  | text [] => []
  | f => [f]

/-- Puts a form before the items of a sequence. -/
def before : Form → List Form → List Form
  | text a, text b :: rest => text (a ++ b) :: rest
  | f, rest => f :: rest

/-- The sequence of some forms. -/
def inRow (fs : List Form) : Form :=
  match (fs.flatMap items).foldr before [] with
  | [] => text []
  | [f] => f
  | many => concat many

/-- The form for a character in one of the ranges. -/
def ofRanges : CodeRanges → Form
  | [(low, high)] => if low = high then text [Char.ofNat low] else oneOf [(low, high)]
  | ranges => oneOf ranges

/-- The code point of a form for one character. -/
def single? : Form → Option (Nat × Nat)
  | text [c] => some (c.toNat, c.toNat)
  | _ => none

/-- The ranges of a class. -/
def ranges? : Form → Option CodeRanges
  | oneOf ranges => some ranges
  | _ => none

/-- What two lists of items begin with alike. -/
def commonItems : List Form → List Form → List Form
  | a :: as, b :: bs => if same a b then a :: commonItems as bs else []
  | _, _ => []

/-- The items of a form that is a sequence. -/
def sequenceItems : Form → List Form
  | concat fs => fs
  | _ => []

/-- The options of a choice. -/
def options : Form → List Form
  | either fs => fs
  | f => [f]

/-- The choice between some forms. Every round takes something from the front of the options, so that as
many rounds as they have items are enough. -/
def choice : Nat → List Form → Form
  | rounds, fs =>
    let fs := fs.flatMap options
    match fs with
    | [f] => f
    | fs =>
      match fs.mapM single?, fs.mapM ranges? with
      | some singles, _ => ofRanges (CodeRanges.normal singles)
      | none, some classes => ofRanges (CodeRanges.normal classes.flatten)
      | none, none =>
        let lists := fs.map sequenceItems
        match rounds, lists.tail.foldl commonItems (lists.headD []) with
        | rounds + 1, f :: rest =>
          let shared := f :: rest
          inRow (shared ++ [choice rounds (lists.map fun fs => inRow (fs.drop shared.length))])
        | _, _ => either fs

/-- So many forms in a row as the bounds allow. More than one match in a row of what is always empty says
nothing new. -/
def times (f : Form) (least : Nat) (most : Option Nat) (greedy : Bool) : Form :=
  let (least, most) := if onlyEmpty f then (min least 1, some (min (most.getD 1) 1)) else (least, most)
  match least, most with
  | 0, some 0 => text []
  | 1, some 1 => f
  | least, most => repeated f least most greedy

end Form

/-- How many expressions there are in an expression. -/
def size : Pattern → Nat
  | group _ p => size p + 1
  | concat p q => size p + size q + 1
  | either p q => size p + size q + 1
  | repeated p _ _ _ => size p + 1
  | _ => 1

/-- The forms of an expression: those of its items or options if it is the rest of a sequence or choice,
and else a single one. -/
def forms (rounds : Nat) : Link → Pattern → List Form
  | link, concat p q =>
    let items := forms rounds .whole p ++ forms rounds .sequence q
    if link = .sequence then items else [.inRow items]
  | link, either p q =>
    let options := forms rounds .whole p ++ forms rounds .choice q
    if link = .choice then options else [.choice rounds options]
  | _, group captures p =>
    let body := forms rounds .whole p
    if captures then body.map .capture else body
  | _, repeated p least most greedy => (forms rounds .whole p).map (·.times least most greedy)
  | _, empty => [.text []]
  | _, any => [.ofRanges (CharClass.range '\n' '\n').negate.ranges]
  | _, literal c => [.text [c]]
  | _, oneOf k => [.ofRanges k.ranges]
  | _, start => [.start]
  | _, stop => [.stop]
  | _, wordStart => [.wordStart]
  | _, wordStop => [.wordStop]

/-- The simplified form of an expression. -/
def form (p : Pattern) : Form :=
  .inRow (forms (size p) .whole p)

end RankedPlans.Pattern
