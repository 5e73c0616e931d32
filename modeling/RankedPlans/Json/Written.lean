import RankedPlans.Json.Numeral

/-!
JSON text as a tree of what is written: literals keep their digits, strings their escapes and objects
every member in its place. `Written.parse?` reads exactly the strict grammar. What the pieces stand
for is decided later, so a value that nobody reads only has to be well formed.
-/

namespace RankedPlans.Json

/-- A piece of a string. -/
inductive Piece where
  | char (c : Char)
  /-- Four hexadecimal digits of a 16-bit unit. -/
  | unit (code : Nat)
  /-- Bytes that are no character. -/
  | stray
deriving DecidableEq, Repr

inductive Written where
  | null
  | bool (b : Bool)
  | number (n : Numeral)
  | string (pieces : List Piece)
  | array (items : List Written)
  | object (members : List (List Piece × Written))
deriving Inhabited

namespace Written

/-- Space, tab, line feed and carriage return. -/
def isBlank (c : Char) : Bool :=
  c = ' ' || c = '\t' || c = '\n' || c = '\r'

/-- The text after its leading blanks. -/
def skipBlanks (cs : List Char) : List Char :=
  cs.dropWhile isBlank

/-- The value of a decimal digit. -/
def digit? (c : Char) : Option Nat :=
  if '0' ≤ c ∧ c ≤ '9' then some (c.toNat - '0'.toNat) else none

/-- The value of a hexadecimal digit of either case. -/
def hexDigit? (c : Char) : Option Nat :=
  if '0' ≤ c ∧ c ≤ '9' then some (c.toNat - '0'.toNat)
  else if 'a' ≤ c ∧ c ≤ 'f' then some (c.toNat - 'a'.toNat + 10)
  else if 'A' ≤ c ∧ c ≤ 'F' then some (c.toNat - 'A'.toNat + 10)
  else none

/-- The longest run of digits at the front, and the text after it. -/
def digits : List Char → List Nat × List Char
  | [] => ([], [])
  | c :: rest =>
    match digit? c with
    | some d => (d :: (digits rest).1, (digits rest).2)
    | none => ([], c :: rest)

/-- At least one digit. -/
def digits? (cs : List Char) : Option (List Nat × List Char) :=
  match digits cs with
  | ([], _) => none
  | found => some found

/-- Digits that do not start with a needless zero. -/
def whole? (cs : List Char) : Option (List Nat × List Char) :=
  match digits cs with
  | ([], _) => none
  | (0 :: _ :: _, _) => none
  | found => some found

/-- The digits after a point, if there is one. -/
def fraction? : List Char → Option (List Nat × List Char)
  | '.' :: rest => digits? rest
  | cs => some ([], cs)

/-- The sign and digits of an exponent, if there is one. -/
def exponent? : List Char → Option (Option (Bool × List Nat) × List Char)
  | c :: rest =>
    if c = 'e' ∨ c = 'E' then
      let (minus, rest) :=
        match rest with
        | '-' :: rest => (true, rest)
        | '+' :: rest => (false, rest)
        | rest => (false, rest)
      (digits? rest).map fun (ds, rest) => (some (minus, ds), rest)
    else some (none, c :: rest)
  | [] => some (none, [])

/-- A number literal without its sign. -/
def magnitude? (negative : Bool) (cs : List Char) : Option (Numeral × List Char) := do
  let (whole, cs) ← whole? cs
  let (fraction, cs) ← fraction? cs
  let (exponent, cs) ← exponent? cs
  return (⟨negative, whole, fraction, exponent⟩, cs)

/-- The pieces of a string up to its closing quote. Control characters have to be escaped. -/
def pieces? : List Char → Option (List Piece × List Char)
  | [] => none
  | '"' :: rest => some ([], rest)
  | '\\' :: 'u' :: a :: b :: c :: d :: rest => do
    let code := (← hexDigit? a) * 4096 + (← hexDigit? b) * 256 + (← hexDigit? c) * 16 + (← hexDigit? d)
    let (ps, rest) ← pieces? rest
    return (.unit code :: ps, rest)
  | '\\' :: e :: rest => do
    let c ←
      match e with
      | '"' => some '"'
      | '\\' => some '\\'
      | '/' => some '/'
      | 'b' => some '\x08'
      | 'f' => some '\x0c'
      | 'n' => some '\n'
      | 'r' => some '\r'
      | 't' => some '\t'
      | _ => none
    let (ps, rest) ← pieces? rest
    return (.char c :: ps, rest)
  | c :: rest =>
    if c.toNat < 0x20 ∨ c = '\\' then none
    else (pieces? rest).map fun (ps, rest) => (.char c :: ps, rest)

mutual

/-- A value after optional blanks. Every step of the recursion reads at least one character. -/
def value? : Nat → List Char → Option (Written × List Char)
  | 0, _ => none
  | fuel + 1, cs =>
    match skipBlanks cs with
    | 'n' :: 'u' :: 'l' :: 'l' :: rest => some (.null, rest)
    | 't' :: 'r' :: 'u' :: 'e' :: rest => some (.bool true, rest)
    | 'f' :: 'a' :: 'l' :: 's' :: 'e' :: rest => some (.bool false, rest)
    | '"' :: rest => (pieces? rest).map fun (ps, rest) => (.string ps, rest)
    | '[' :: rest =>
      match skipBlanks rest with
      | ']' :: rest => some (.array [], rest)
      | rest => (items? fuel rest).map fun (vs, rest) => (.array vs, rest)
    | '\x7b' :: rest =>
      match skipBlanks rest with
      | '\x7d' :: rest => some (.object [], rest)
      | rest => (members? fuel rest).map fun (ms, rest) => (.object ms, rest)
    | '-' :: rest => (magnitude? true rest).map fun (n, rest) => (.number n, rest)
    | rest => (magnitude? false rest).map fun (n, rest) => (.number n, rest)

/-- The items of an array up to its closing bracket. -/
def items? : Nat → List Char → Option (List Written × List Char)
  | 0, _ => none
  | fuel + 1, cs => do
    let (v, rest) ← value? fuel cs
    match skipBlanks rest with
    | ']' :: rest => some ([v], rest)
    | ',' :: rest =>
      let (vs, rest) ← items? fuel rest
      return (v :: vs, rest)
    | _ => none

/-- The members of an object up to its closing brace. -/
def members? : Nat → List Char → Option (List (List Piece × Written) × List Char)
  | 0, _ => none
  | fuel + 1, cs =>
    match skipBlanks cs with
    | '"' :: rest => do
      let (key, rest) ← pieces? rest
      match skipBlanks rest with
      | ':' :: rest =>
        let (v, rest) ← value? fuel rest
        match skipBlanks rest with
        | '\x7d' :: rest => some ([(key, v)], rest)
        | ',' :: rest =>
          let (ms, rest) ← members? fuel rest
          return ((key, v) :: ms, rest)
        | _ => none
      | _ => none
    | _ => none

end

/-- The tree of the value at the front, and the characters after it. -/
def leading? (cs : List Char) : Option (Written × List Char) :=
  value? (cs.length + 1) cs

/-- Whether nothing but blanks is left. -/
def onlyBlanks (cs : List Char) : Bool :=
  (skipBlanks cs).isEmpty

/-- The tree of characters that hold one value between optional blanks. -/
def ofChars? (cs : List Char) : Option Written := do
  let (v, rest) ← leading? cs
  if onlyBlanks rest then some v else none

/-- The tree of a text. -/
def parse? (text : String) : Option Written :=
  ofChars? text.toList

end Written

end RankedPlans.Json
