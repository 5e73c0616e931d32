import RankedPlans.Number.Bounds

/-!
Number literals of JSON and the numbers they stand for. A literal without fraction and exponent is an
integer if it fits 64 bits, signed or unsigned; every other literal is read in double precision, as a
64-bit significand scaled by powers of ten.
-/

namespace RankedPlans.Json

/-- The digits of a number literal. -/
structure Numeral where
  negative : Bool
  whole : List Nat
  fraction : List Nat
  /-- The sign of the exponent, true for a minus, and its digits. -/
  exponent : Option (Bool × List Nat)
deriving DecidableEq, Repr

namespace Numeral

/-- Appends digits to a significand as long as it fits 64 bits, and gives the digits left over. -/
def absorb (significand : Nat) : List Nat → Nat × List Nat
  | [] => (significand, [])
  | d :: rest =>
    if significand * 10 + d ≤ nat64Max then absorb (significand * 10 + d) rest
    else (significand, d :: rest)

/-- The number that a list of decimal digits writes. -/
def ofDigits (digits : List Nat) : Nat :=
  digits.foldl (fun n d => n * 10 + d) 0

/-- The integer that the literal stands for: it has no fraction and no exponent, fits 64 bits and is
not a negative zero. -/
def integer? (n : Numeral) : Option Int :=
  let value := ofDigits n.whole
  if n.fraction ≠ [] ∨ n.exponent.isSome then none
  else if n.negative then
    if 0 < value ∧ int64Min ≤ -(value : Int) then some (-value) else none
  else if value ≤ nat64Max then some value else none

/-- A power of ten that is a finite double. -/
def powerOfTen (n : Nat) : Float :=
  OfScientific.ofScientific 1 false n

/-- Divides by a power of ten, by at most `1e308` at a time; zero stays zero. -/
def scaleDown (x : Float) (power : Nat) : Nat → Float
  | 0 => x
  | fuel + 1 =>
    if power ≤ 308 then x / powerOfTen power
    else if x == 0 then x
    else scaleDown (x / powerOfTen 308) (power - 308) fuel

/-- `significand · 10 ^ power` with one rounding for the significand and one for each scaling; it has
no value if it is too large. -/
def scaled? (significand : Nat) (power : Int) : Option Float :=
  let x := Float.ofNat significand
  if power < 0 then some (scaleDown x power.natAbs (power.natAbs + 1))
  else if power ≤ 308 then
    let y := x * powerOfTen power.toNat
    if y.isInf then none else some y
  else if significand = 0 then some x else none

/-- The greatest exponent that is computed with; beyond it a literal is too large or zero. -/
def exponentMax : Nat := 0x7FFFFFFF

/-- The number in double precision. -/
def float? (n : Numeral) : Option Float := do
  let (head, dropped) := absorb 0 n.whole
  let (significand, ignored) := absorb head n.fraction
  let power : Int := dropped.length - (n.fraction.length - ignored.length : Nat)
  let magnitude ←
    match n.exponent with
    | none => scaled? significand power
    | some (minus, digits) =>
      let e := ofDigits digits
      if e ≤ exponentMax then scaled? significand (if minus then power - e else power + e)
      else if minus ∨ significand = 0 then some 0
      else none
  return if n.negative then -magnitude else magnitude

end Numeral

end RankedPlans.Json
