import RankedPlans.Number.Bounds
import RankedPlans.Pattern.Basic
import RankedPlans.Pattern.CharClass.Reader
import RankedPlans.Text.Blank

/-!
Reading of regular expressions: alternatives, groups, repetitions, character classes, anchors and
escapes.
-/

namespace RankedPlans.Pattern

/-- A decimal number with optional white space around it. -/
def number? (cs : List Char) : Option (Nat × List Char) :=
  let cs := cs.dropWhile Text.isBlank
  match cs.takeWhile Char.isDigit with
  | [] => none
  | ds =>
    let n := ds.foldl (fun n d => n * 10 + (d.toNat - '0'.toNat)) 0
    if n ≤ nat32Max then some (n, (cs.dropWhile Char.isDigit).dropWhile Text.isBlank) else none

/-- The bounds of a counted repetition after its opening brace. -/
def counts? (cs : List Char) : Option ((Nat × Option Nat) × List Char) := do
  let (least, cs) ← number? cs
  match cs with
  | '\x7d' :: rest => some ((least, some least), rest)
  | ',' :: '\x7d' :: rest => some ((least, none), rest)
  | ',' :: rest =>
    let (most, rest) ← number? rest
    match rest with
    | '\x7d' :: rest => if least ≤ most then some ((least, some most), rest) else none
    | _ => none
  | _ => none

/-- A question mark after a repetition prefers fewer matches. Says whether there is none. -/
def greedy : List Char → Bool × List Char
  | '?' :: rest => (false, rest)
  | cs => (true, cs)

/-- The repetitions written after an expression. -/
def repetitions : Nat → Pattern → List Char → Option (Pattern × List Char)
  | 0, _, _ => none
  | fuel + 1, p, cs =>
    let again := fun least most (after : Bool × List Char) =>
      repetitions fuel (repeated p least most after.1) after.2
    match cs with
    | '*' :: rest => again 0 none (greedy rest)
    | '+' :: rest => again 1 none (greedy rest)
    | '?' :: rest => again 0 (some 1) (greedy rest)
    | '\x7b' :: rest => do
      let ((least, most), rest) ← counts? rest
      again least most (greedy rest)
    | rest => some (p, rest)

mutual

/-- Alternatives up to a closing parenthesis or the end. -/
def alternatives? : Nat → List Char → Option (Pattern × List Char)
  | 0, _ => none
  | fuel + 1, cs => do
    let (ps, rest) ← sequence? fuel cs
    match rest with
    | '|' :: rest =>
      let (q, rest) ← alternatives? fuel rest
      return (either (inRow ps) q, rest)
    | rest => some (inRow ps, rest)

/-- Expressions one after the other, up to a bar, a closing parenthesis or the end. -/
def sequence? : Nat → List Char → Option (List Pattern × List Char)
  | 0, _ => none
  | fuel + 1, cs =>
    match cs with
    | [] => some ([], [])
    | ')' :: _ => some ([], cs)
    | '|' :: _ => some ([], cs)
    | cs => do
      let (p, rest) ← atom? fuel cs
      let (p, rest) ← repetitions (fuel + 1) p rest
      let (ps, rest) ← sequence? fuel rest
      return (p :: ps, rest)

/-- A single character, class, anchor or group. -/
def atom? : Nat → List Char → Option (Pattern × List Char)
  | 0, _ => none
  | fuel + 1, cs =>
    match cs with
    | '(' :: '?' :: ':' :: rest => group? fuel false rest
    | '(' :: '?' :: _ => none
    | '(' :: rest => group? fuel true rest
    | '[' :: rest => (CharClass.read? (fuel + 1) rest).map fun (k, rest) => (oneOf k, rest)
    | '.' :: rest => some (any, rest)
    | '^' :: rest => some (start, rest)
    | '$' :: rest => some (stop, rest)
    | '\\' :: '<' :: rest => some (wordStart, rest)
    | '\\' :: '>' :: rest => some (wordStop, rest)
    | '\\' :: c :: rest => (CharClass.escaped? c).map fun c => (literal c, rest)
    | c :: rest => if c ∈ ['*', '+', '?', '\x7b', '\\'] then none else some (literal c, rest)
    | [] => none

/-- The alternatives of a group and its closing parenthesis. -/
def group? : Nat → Bool → List Char → Option (Pattern × List Char)
  | 0, _, _ => none
  | fuel + 1, captures, cs => do
    match ← alternatives? fuel cs with
    | (p, ')' :: rest) => some (group captures p, rest)
    | _ => none

end

/-- The expression that a text writes. -/
def parse? (text : String) : Option Pattern :=
  let cs := text.toList
  match alternatives? (4 * cs.length + 4) cs with
  | some (p, []) => some p
  | _ => none

end RankedPlans.Pattern
