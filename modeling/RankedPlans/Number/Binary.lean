/-!
Double-precision numbers read exactly: `BinaryValue.ofFloat?` gives the sign, significand and power
of two of every finite number, and `Float` text, floors and bounded integers are computed on these.
-/

namespace RankedPlans

/-- The number `± significand · 2 ^ exponent`. -/
structure BinaryValue where
  negative : Bool
  significand : Nat
  exponent : Int
deriving DecidableEq, Repr

namespace BinaryValue

/-- The number of values of the fraction bits. -/
def fractionSize : Nat := 0x10000000000000

/-- Reads a sign bit, eleven exponent bits and fifty-two fraction bits; the highest exponent stands
for infinities and for what is not a number. -/
def ofBits? (bits : Nat) : Option BinaryValue :=
  let fraction : Nat := bits % fractionSize
  let biased : Nat := bits / fractionSize % 2048
  let negative := decide (bits / fractionSize / 2048 = 1)
  if biased = 2047 then none
  else if biased = 0 then some ⟨negative, fraction, -1074⟩
  else some ⟨negative, fractionSize + fraction, (biased : Int) - 1075⟩

/-- The exact value of a finite number. -/
def ofFloat? (x : Float) : Option BinaryValue :=
  ofBits? x.toBits.toNat

/-- The greatest integer that is not above the number. -/
def floor (b : BinaryValue) : Int :=
  let scaled : Int := b.significand * Nat.pow 2 b.exponent.toNat
  Int.fdiv (if b.negative then -scaled else scaled) (Nat.pow 2 (-b.exponent).toNat)

end BinaryValue

/-- The floor of a number, moved to the nearer end of `low..high` if it lies outside; what is not a
number counts as zero. -/
def floorWithin (low high : Int) (x : Float) : Int :=
  match BinaryValue.ofFloat? x with
  | some b => max low (min high b.floor)
  | none => if x < 0 then low else if 0 < x then high else 0

end RankedPlans
