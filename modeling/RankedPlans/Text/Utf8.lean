/-!
Text as bytes. `Utf8.encode` writes every character with one to four bytes. `Utf8.decode` reads bytes
and marks each place where they are no character, as long as the bytes there could have begun one;
strict and lenient reading differ only in what becomes of these places.
-/

namespace RankedPlans.Utf8

/-- The bytes of a text. -/
def encode (s : String) : List UInt8 :=
  s.toList.flatMap String.utf8EncodeChar

/-- A character of several bytes that has begun. -/
structure Begun where
  /-- The bits read so far. -/
  value : Nat
  /-- The least next byte. -/
  low : Nat
  /-- The greatest next byte. -/
  high : Nat
  /-- How many bytes follow the next one. -/
  later : Nat
deriving DecidableEq, Repr

/-- What a byte at the start of a character tells. -/
inductive Lead where
  | char (c : Char)
  | begun (b : Begun)
  | stray
deriving DecidableEq, Repr

/-- Reads the first byte of a character. The bounds on the second byte exclude values that fewer bytes
can write, surrogates and values beyond the last character. -/
def lead (b : Nat) : Lead :=
  if b < 0x80 then .char (Char.ofNat b)
  else if b < 0xC2 then .stray
  else if b < 0xE0 then .begun ⟨b - 0xC0, 0x80, 0xBF, 0⟩
  else if b = 0xE0 then .begun ⟨0, 0xA0, 0xBF, 1⟩
  else if b = 0xED then .begun ⟨0xD, 0x80, 0x9F, 1⟩
  else if b < 0xF0 then .begun ⟨b - 0xE0, 0x80, 0xBF, 1⟩
  else if b = 0xF0 then .begun ⟨0, 0x90, 0xBF, 2⟩
  else if b < 0xF4 then .begun ⟨b - 0xF0, 0x80, 0xBF, 2⟩
  else if b = 0xF4 then .begun ⟨4, 0x80, 0x8F, 2⟩
  else .stray

/-- Reads bytes after the beginning of a character, if there is one. -/
def decodeAfter : Option Begun → List UInt8 → List (Option Char)
  | none, [] => []
  | some _, [] => [none]
  | begun, byte :: rest =>
    let b := byte.toNat
    let fresh :=
      match lead b with
      | .char c => some c :: decodeAfter none rest
      | .begun p => decodeAfter (some p) rest
      | .stray => none :: decodeAfter none rest
    match begun with
    | none => fresh
    | some p =>
      if p.low ≤ b ∧ b ≤ p.high then
        let value := p.value * 64 + b % 64
        match p.later with
        | 0 => some (Char.ofNat value) :: decodeAfter none rest
        | later + 1 => decodeAfter (some ⟨value, 0x80, 0xBF, later⟩) rest
      else none :: fresh

/-- The characters of some bytes, and nothing for each place without one. -/
def decode (bytes : List UInt8) : List (Option Char) :=
  decodeAfter none bytes

/-- The text of bytes that are characters throughout. -/
def text? (bytes : List UInt8) : Option String :=
  ((decode bytes).mapM id).map String.ofList

/-- The text of any bytes, with a replacement character for each place without a character. -/
def lossy (bytes : List UInt8) : String :=
  String.ofList ((decode bytes).map (·.getD '\uFFFD'))

end RankedPlans.Utf8
