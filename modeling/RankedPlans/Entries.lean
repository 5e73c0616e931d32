import RankedPlans.Sorting

/-!
Lists of named values in ascending order of names, with one value for each name.
-/

namespace RankedPlans

abbrev Entries (α : Type) := List (String × α)

namespace Entries

variable {α : Type}

/-- Adds a value in its place by name; an earlier value of the same name gives way. -/
def put (name : String) (value : α) : Entries α → Entries α
  | [] => [(name, value)]
  | (other, held) :: rest =>
    if name = other then (name, value) :: rest
    else if name < other then (name, value) :: (other, held) :: rest
    else (other, held) :: put name value rest

/-- Of neighbours with one name, only the last. -/
def lastOfEach : List (String × α) → Entries α
  | v :: w :: rest => if v.1 = w.1 then lastOfEach (w :: rest) else v :: lastOfEach (w :: rest)
  | vs => vs

/-- The values by ascending name, where the last of those with one name stays. -/
def ofList (values : List (String × α)) : Entries α :=
  lastOfEach (sortBy (fun v w => !decide (w.1 < v.1)) values)

/-- The value of a name. -/
def get? (es : Entries α) (name : String) : Option α :=
  es.lookup name

/-- Drops the value of a name. -/
def erase (es : Entries α) (name : String) : Entries α :=
  es.filter (·.1 ≠ name)

end Entries

end RankedPlans
