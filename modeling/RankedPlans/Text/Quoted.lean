import RankedPlans.Text.Unseen

/-!
Texts between quotes for messages. A quote, a backslash and characters that cannot be seen are written
as escapes, so that the quoted form shows exactly what the text holds.
-/

namespace RankedPlans.Text

/-- The escape of a character, or the character itself. -/
def escape (c : Char) : List Char :=
  match c with
  | '"' => ['\\', '"']
  | '\\' => ['\\', '\\']
  | '\n' => ['\\', 'n']
  | '\r' => ['\\', 'r']
  | '\t' => ['\\', 't']
  | '\x00' => ['\\', '0']
  | c =>
    if isSeen c then [c]
    else '\\' :: 'u' :: '\x7b' :: Nat.toDigits 16 c.toNat ++ ['\x7d']

/-- The text between quotes. -/
def quoted (s : String) : String :=
  String.ofList ('"' :: s.toList.flatMap escape ++ ['"'])

end RankedPlans.Text
