import RankedPlans.Pattern.CharClass

/-!
Reading of classes in brackets: characters, ranges, classes within classes, named classes, and operations
between what stands before and after them.
-/

namespace RankedPlans.CharClass

/-- The character that an escape stands for. Apart from angle brackets, every ASCII character that is no
letter or digit stands for itself. -/
def escaped? (c : Char) : Option Char :=
  match c with
  | 'n' => some '\n'
  | 't' => some '\t'
  | 'r' => some '\r'
  | 'a' => some '\x07'
  | 'f' => some '\x0c'
  | 'v' => some '\x0b'
  | c =>
    if c.toNat < 0x80 ∧ c.isAlphanum = false ∧ c ≠ '<' ∧ c ≠ '>' then some c
    else none

/-- One character of a class. -/
def char? : List Char → Option (Char × List Char)
  | '\\' :: c :: rest => (escaped? c).map (·, rest)
  | '\\' :: [] => none
  | c :: rest => some (c, rest)
  | [] => none

/-- A character or a range. A hyphen before a closing bracket or a hyphen makes no range. -/
def range? (cs : List Char) : Option (CharClass × List Char) := do
  let (low, rest) ← char? cs
  match rest with
  | '-' :: ']' :: _ => some (range low low, rest)
  | '-' :: '-' :: _ => some (range low low, rest)
  | '-' :: after =>
    let (high, rest) ← char? after
    if low ≤ high then some (range low high, rest) else none
  | _ => some (range low low, rest)

/-- The ranges of a named class of ASCII characters. -/
def named? (name : String) : Option (List (Char × Char)) :=
  match name with
  | "alnum" => some [('0', '9'), ('A', 'Z'), ('a', 'z')]
  | "alpha" => some [('A', 'Z'), ('a', 'z')]
  | "ascii" => some [('\x00', '\x7f')]
  | "blank" => some [('\t', '\t'), (' ', ' ')]
  | "cntrl" => some [('\x00', '\x1f'), ('\x7f', '\x7f')]
  | "digit" => some [('0', '9')]
  | "graph" => some [('!', '~')]
  | "lower" => some [('a', 'z')]
  | "print" => some [(' ', '~')]
  | "punct" => some [('!', '/'), (':', '@'), ('[', '\x60'), ('\x7b', '~')]
  | "space" => some [('\t', '\r'), (' ', ' ')]
  | "upper" => some [('A', 'Z')]
  | "word" => some [('0', '9'), ('A', 'Z'), ('_', '_'), ('a', 'z')]
  | "xdigit" => some [('0', '9'), ('A', 'F'), ('a', 'f')]
  | _ => none

/-- A named class after its opening bracket, such as `:alpha:]`, or without the named one after a caret. -/
def ascii? : List Char → Option (CharClass × List Char)
  | ':' :: cs => do
    let (negated, cs) :=
      match cs with
      | '^' :: rest => (true, rest)
      | cs => (false, cs)
    match cs.dropWhile (· ≠ ':') with
    | ':' :: ']' :: rest =>
      let ranges ← named? (String.ofList (cs.takeWhile (· ≠ ':')))
      let k : CharClass := { union (ranges.map fun r => range r.1 r.2) with nesting := 0 }
      return (if negated then k.negate else k, rest)
    | _ => none
  | _ => none

/-- What has been read of a class: the items since the last operation, the latest first, and what stands
before that operation. -/
structure Partial where
  items : List CharClass
  before : Option (ClassOperation × CharClass) := none

/-- The class read so far. -/
def Partial.whole (p : Partial) : CharClass :=
  match p.before with
  | none => union p.items
  | some (op, k) => operate op k (union p.items)

/-- One more item. -/
def Partial.add (p : Partial) (k : CharClass) : Partial :=
  { p with items := k :: p.items }

/-- An operation, after which new items follow. -/
def Partial.operate (p : Partial) (op : ClassOperation) : Partial :=
  ⟨[], some (op, p.whole)⟩

mutual

/-- A class after its opening bracket. Hyphens and one closing bracket at its front stand for
themselves. -/
def read? : Nat → List Char → Option (CharClass × List Char)
  | 0, _ => none
  | fuel + 1, cs => do
    let (negated, cs) :=
      match cs with
      | '^' :: rest => (true, rest)
      | cs => (false, cs)
    let hyphens := (cs.takeWhile (· = '-')).map fun c => range c c
    let (items, cs) :=
      match hyphens, cs.dropWhile (· = '-') with
      | [], ']' :: rest => ([range ']' ']'], rest)
      | _, cs => (hyphens, cs)
    let (k, rest) ← readRest? fuel ⟨items, none⟩ cs
    return ((if negated then k.negate else k).bracketed, rest)

/-- The rest of a class, up to its closing bracket. -/
def readRest? : Nat → Partial → List Char → Option (CharClass × List Char)
  | 0, _, _ => none
  | fuel + 1, p, cs =>
    match cs with
    | ']' :: rest => some (p.whole, rest)
    | '[' :: rest =>
      match ascii? rest with
      | some (k, rest) => readRest? fuel (p.add k) rest
      | none => do
        let (k, rest) ← read? fuel rest
        readRest? fuel (p.add k) rest
    | '&' :: '&' :: rest => readRest? fuel (p.operate .intersection) rest
    | '-' :: '-' :: rest => readRest? fuel (p.operate .difference) rest
    | '~' :: '~' :: rest => readRest? fuel (p.operate .symmetricDifference) rest
    | cs => do
      let (k, rest) ← range? cs
      readRest? fuel (p.add k) rest

end

end RankedPlans.CharClass
