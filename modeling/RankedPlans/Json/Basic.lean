import RankedPlans.Entries

/-!
JSON values. Integers are kept apart from floating-point numbers, and an object is a list of members;
`Json.sortKeys` brings the members of every object into ascending order of keys.
-/

namespace RankedPlans

inductive Json where
  | null
  | bool (b : Bool)
  | integer (n : Int)
  | float (x : Float)
  | string (s : String)
  | array (items : List Json)
  | object (members : List (String × Json))
deriving Inhabited

namespace Json

mutual

/-- The same value with the members of every object by ascending key. -/
def sortKeys : Json → Json
  | array items => array (sortItems items)
  | object members => object (Entries.ofList (sortValues members))
  | other => other

/-- `sortKeys` on each item of an array. -/
def sortItems : List Json → List Json
  | [] => []
  | v :: rest => sortKeys v :: sortItems rest

/-- `sortKeys` on the value of each member of an object. -/
def sortValues : List (String × Json) → List (String × Json)
  | [] => []
  | (key, v) :: rest => (key, sortKeys v) :: sortValues rest

end

mutual

/-- The first floating-point number, in the order in which the value is written. -/
def firstFloat? : Json → Option Float
  | float x => some x
  | array items => firstFloatOfItems? items
  | object members => firstFloatOfMembers? members
  | _ => none

/-- The first floating-point number in the items of an array. -/
def firstFloatOfItems? : List Json → Option Float
  | [] => none
  | v :: rest => (firstFloat? v).or (firstFloatOfItems? rest)

/-- The first floating-point number in the members of an object. -/
def firstFloatOfMembers? : List (String × Json) → Option Float
  | [] => none
  | (_, v) :: rest => (firstFloat? v).or (firstFloatOfMembers? rest)

end

end Json

end RankedPlans
