import RankedPlans.Pattern.Footprint
import RankedPlans.Pattern.Reader

/-!
Regular expressions for whole names.
-/

namespace RankedPlans.Pattern

/-- The expression for whole names: the text stands in a group between the anchors before it is read, so
that parentheses in it may close that group. Expressions beyond the limits are none. -/
def wholeName? (text : String) : Option Pattern :=
  (parse? ("^(?:" ++ text ++ ")$")).filter isModest

end RankedPlans.Pattern
