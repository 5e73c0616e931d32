import RankedPlans.Json.Record
import RankedPlans.Number.Decimal
import RankedPlans.Pattern.WholeName

/-!
Requests: how many plans to enumerate, how far from the least cost, for how long, and which plans count
as the same. `Request.check` finds the fault of a request or gives its pattern.
-/

namespace RankedPlans

structure Request where
  /-- The greatest number of plans. -/
  count : Option Nat := none
  /-- Plans cost at most this factor times the least cost. -/
  quality : Option Float := none
  /-- How many milliseconds the enumeration may take. -/
  milliseconds : Option Nat := none
  /-- Whether plans that are permutations of each other count as the same. -/
  unordered : Bool := false
  /-- Operators with such a name keep their order when plans are compared, and the others may stand in
  any order. -/
  preserved : Option String := none

namespace Request

/-- Why a request cannot be served. -/
inductive Fault where
  | unbounded
  | zeroCount
  | quality (factor : Float)
  | pattern

/-- The wording of a fault. -/
def Fault.message : Fault → String
  | unbounded => "invalid request: one of k or quality is required"
  | zeroCount => "invalid request: k must be at least 1"
  | quality factor =>
    "invalid request: quality must be a finite number >= 1.0, got " ++ Layout.plain.float factor
  | pattern => "invalid preserve-order pattern"

/-- Whether a quality factor is a finite number of at least one. -/
def isFactor (factor : Float) : Bool :=
  factor.isFinite && !(factor < 1)

/-- The pattern of a sound request, which matches whole operator names. -/
def check (r : Request) : Except Fault (Option Pattern) := do
  if r.count.isNone && r.quality.isNone then throw .unbounded
  if r.count = some 0 then throw .zeroCount
  match r.quality with
  | some factor => if !isFactor factor then throw (.quality factor)
  | none => pure ()
  match r.preserved with
  | none => return none
  | some text =>
    match Pattern.wholeName? text with
    | some p => return some p
    | none => throw .pattern

/-- The greatest cost within the quality factor. The small addend makes up for products that fall just
short of an integer. -/
def costBound? (r : Request) (optimal : Int) : Option Int :=
  r.quality.map fun factor =>
    floorWithin int64Min int64Max (factor * Float.ofInt optimal + 1e-9)

/-- Reads a request record. -/
def read? (w : Json.Written) : Option Request := do
  let fields := [⟨"k", .optional⟩, ⟨"quality", .optional⟩, ⟨"time_limit_ms", .optional⟩,
    ⟨"unordered", .defaulted⟩, ⟨"preserve_order_regex", .defaulted⟩]
  match ← w.fields? fields with
  | [count, quality, milliseconds, unordered, preserved] =>
    let count ← Json.optional? Json.Written.nat64? count
    let quality ← Json.optional? Json.Written.float? quality
    let milliseconds ← Json.optional? Json.Written.nat64? milliseconds
    let unordered ← Json.defaulted? Json.Written.bool? false unordered
    let preserved ← Json.optional? Json.Written.string? preserved
    return { count, quality, milliseconds, unordered, preserved }
  | _ => none

/-- The request that a text holds. -/
def parse? (text : String) : Option Request :=
  (Json.Written.parse? text).bind read?

end Request

end RankedPlans
