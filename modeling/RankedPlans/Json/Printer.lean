import RankedPlans.Json.Basic
import RankedPlans.Number.Decimal

/-!
Compact JSON text. `Json.text` writes a value as it stands; `Json.canonical` writes it with sorted
keys and refuses floating-point numbers, so that equal values have equal canonical text.
-/

namespace RankedPlans.Json

/-- The lower-case hexadecimal digit of a number below sixteen. -/
def hexDigit (n : Nat) : Char :=
  Nat.digitChar n

/-- Quotes, backslashes and control characters are escaped; all else stands for itself. -/
def escaped (c : Char) : List Char :=
  match c with
  | '"' => ['\\', '"']
  | '\\' => ['\\', '\\']
  | '\n' => ['\\', 'n']
  | '\t' => ['\\', 't']
  | '\r' => ['\\', 'r']
  | '\x08' => ['\\', 'b']
  | '\x0c' => ['\\', 'f']
  | c =>
    if c.toNat < 0x20 then ['\\', 'u', '0', '0', hexDigit (c.toNat / 16), hexDigit (c.toNat % 16)]
    else [c]

/-- A string between quotes. -/
def quoted (s : String) : List Char :=
  '"' :: s.toList.flatMap escaped ++ ['"']

mutual

/-- The text of a value without white space. -/
def chars : Json → List Char
  | null => ['n', 'u', 'l', 'l']
  | bool true => ['t', 'r', 'u', 'e']
  | bool false => ['f', 'a', 'l', 's', 'e']
  | integer (.ofNat n) => Nat.toDigits 10 n
  | integer (.negSucc n) => '-' :: Nat.toDigits 10 (n + 1)
  | float x => (Layout.json.float x).toList
  | string s => quoted s
  | array items => '[' :: itemChars items
  | object members => '\x7b' :: memberChars members

/-- The items of an array and its closing bracket. -/
def itemChars : List Json → List Char
  | [] => [']']
  | [v] => chars v ++ [']']
  | v :: rest => chars v ++ ',' :: itemChars rest

/-- The members of an object and its closing brace. -/
def memberChars : List (String × Json) → List Char
  | [] => ['\x7d']
  | [(key, v)] => quoted key ++ ':' :: chars v ++ ['\x7d']
  | (key, v) :: rest => quoted key ++ ':' :: chars v ++ ',' :: memberChars rest

end

/-- The text of a value without white space. -/
def text (v : Json) : String :=
  String.ofList v.chars

/-- A value that has no canonical text, by the first floating-point number in it. -/
structure NonInteger where
  number : Float

/-- The wording of the refusal. -/
def NonInteger.message (e : NonInteger) : String :=
  "non-integer number in canonical JSON: " ++ Layout.json.float e.number

/-- The text with sorted keys, for values whose numbers are all integers. -/
def canonical? (v : Json) : Except NonInteger String :=
  match v.sortKeys.firstFloat? with
  | some x => .error ⟨x⟩
  | none => .ok v.sortKeys.text

end RankedPlans.Json
