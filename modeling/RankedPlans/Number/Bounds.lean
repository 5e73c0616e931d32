/-!
The bounds of the integers that records, counters and sums of costs can hold.
-/

namespace RankedPlans

/-- The greatest natural number of 32 bits. -/
def nat32Max : Nat := 0xFFFFFFFF

/-- The greatest natural number of 64 bits. -/
def nat64Max : Nat := 0xFFFFFFFFFFFFFFFF

/-- The least signed integer of 64 bits. -/
def int64Min : Int := -0x8000000000000000

/-- The greatest signed integer of 64 bits. -/
def int64Max : Int := 0x7FFFFFFFFFFFFFFF

end RankedPlans
