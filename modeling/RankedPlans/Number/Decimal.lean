import RankedPlans.Number.Binary

/-!
Decimal text of double-precision numbers. `Decimal.ofBinary` selects the fewest digits that read
back to the number, and of those the nearest to it; `Layout` says how digits are laid out, with
`Layout.json` for JSON numbers and `Layout.plain` for messages.
-/

namespace RankedPlans

/-- The number `digits · 10 ^ exponent`. -/
structure Decimal where
  digits : Nat
  exponent : Int
deriving DecidableEq, Repr

namespace Decimal

/-- The reals that round to `± significand · 2 ^ exponent`, in units of a quarter of the last bit:
from `low` to `high` around `4 · significand`. The gap below a power of two is half as wide. -/
structure RoundingRange where
  low : Nat
  value : Nat
  high : Nat
  /-- An even significand also wins the two ties at the ends. -/
  closed : Bool
  /-- The power of two of the unit. -/
  unit : Int

/-- The reals that round to the number. -/
def RoundingRange.ofBinary (b : BinaryValue) : RoundingRange :=
  let m := b.significand
  let below := if m = BinaryValue.fractionSize ∧ b.exponent ≠ -1074 then 1 else 2
  ⟨4 * m - below, 4 * m, 4 * m + 2, m % 2 = 0, b.exponent - 2⟩

/-- `n · 10 ^ e` over the common denominator of `10 ^ e` and `2 ^ unit`. -/
def onTenGrid (unit e : Int) (n : Nat) : Nat :=
  n * Nat.pow 10 e.toNat * Nat.pow 2 (-unit).toNat

/-- `n · 2 ^ unit` over the same denominator. -/
def onTwoGrid (unit e : Int) (n : Nat) : Nat :=
  n * Nat.pow 2 unit.toNat * Nat.pow 10 (-e).toNat

/-- Whether `n · 10 ^ e` rounds to the number. -/
def RoundingRange.admits (r : RoundingRange) (e : Int) (n : Nat) : Bool :=
  let x := onTenGrid r.unit e n
  let low := onTwoGrid r.unit e r.low
  let high := onTwoGrid r.unit e r.high
  if r.closed then low ≤ x && x ≤ high else low < x && x < high

/-- The point of the grid `10 ^ e` that rounds to the number, the nearer one if both neighbours do
and the even one at the same distance. -/
def RoundingRange.gridPoint? (r : RoundingRange) (e : Int) : Option Decimal :=
  let value := onTwoGrid r.unit e r.value
  let below := value / onTenGrid r.unit e 1
  let gapBelow := value - onTenGrid r.unit e below
  let gapAbove := onTenGrid r.unit e (below + 1) - value
  let nearest :=
    if gapBelow < gapAbove ∨ (gapBelow = gapAbove ∧ below % 2 = 0) then below else below + 1
  let other := if nearest = below then below + 1 else below
  if r.admits e nearest then some ⟨nearest, e⟩
  else if r.admits e other then some ⟨other, e⟩
  else none

/-- The fewest decimal digits that read back to the number, the nearest to it among those: the
coarsest grid with a point that rounds to the number decides. -/
def ofBinary (b : BinaryValue) : Decimal :=
  if b.significand = 0 then ⟨0, 0⟩ else
    let range := RoundingRange.ofBinary b
    let grids := (List.range 640).map fun (i : Nat) => (310 : Int) - i
    (grids.findSome? range.gridPoint?).getD ⟨0, 0⟩

end Decimal

/-- How the digits of a number are laid out. -/
structure Layout where
  /-- The powers of ten of the first digit between which no exponent is written. -/
  positional : Int → Bool
  /-- Whether an integral number ends in `.0`. -/
  pointZero : Bool
  /-- What stands before a non-negative exponent. -/
  positiveExponent : String

namespace Layout

/-- JSON numbers are positional from `1e-5` up to `1e16` and always show a point or an exponent. -/
def json : Layout where
  positional power := -5 ≤ power && power ≤ 15
  pointZero := true
  positiveExponent := "+"

/-- Plain numbers never have an exponent, and integral ones have no point. -/
def plain : Layout where
  positional _ := true
  pointZero := false
  positiveExponent := ""

/-- The text of a number without its sign. -/
def text (layout : Layout) (d : Decimal) : String :=
  let digits := Nat.toDigits 10 d.digits
  let power := d.exponent + digits.length - 1
  let tail := if layout.pointZero then ".0" else ""
  if d.digits = 0 then "0" ++ tail
  else if layout.positional power then
    if 0 ≤ d.exponent then
      String.ofList (digits ++ List.replicate d.exponent.toNat '0') ++ tail
    else if 0 ≤ power then
      String.ofList (digits.take (power.toNat + 1)) ++ "." ++
        String.ofList (digits.drop (power.toNat + 1))
    else "0." ++ String.ofList (List.replicate ((-power).toNat - 1) '0' ++ digits)
  else
    let point := if digits.length = 1 then "" else "."
    let sign := if 0 ≤ power then layout.positiveExponent else "-"
    String.ofList (digits.take 1) ++ point ++ String.ofList (digits.drop 1) ++ "e" ++ sign ++
      toString power.natAbs

/-- The text of any number. -/
def float (layout : Layout) (x : Float) : String :=
  match BinaryValue.ofFloat? x with
  | some b => (if b.negative then "-" else "") ++ layout.text (Decimal.ofBinary b)
  | none => if x < 0 then "-inf" else if 0 < x then "inf" else "NaN"

end Layout

end RankedPlans
