import RankedPlans.Plan.Selection
import RankedPlans.Search.Basic

/-!
Plans read off the recorded graph. Where states were replaced by representatives, an edge holds an
operator for the representative; the generators applied on the way lead back to the operator for the
state that the plan has reached.
-/

namespace RankedPlans.Search

/-- The operators of a path of edges, for a search without symmetries. -/
def operators (s : Search) (path : List Nat) : Plan :=
  path.filterMap fun e =>
    match s.edges[e]?.map Edge.label with
    | some (.operator op) => some op
    | _ => none

/-- The operators of a path of edges. The trace leads from the state that the plan has reached to its
representative. -/
def decodeFrom (c : SearchSetting) (s : Search) (g : SymmetryGroup) :
    List Nat → List Nat → Plan
  | _, [] => []
  | trace, e :: rest =>
    match s.edges[e]? with
    | some ⟨source, _, .operator op, _⟩ =>
      let moved :=
        match s.stateOf? source with
        | some state => (g.canonicalState (c.task.apply state op)).2
        | none => []
      g.unmapOperator trace op :: decodeFrom c s g (trace ++ moved) rest
    | _ => decodeFrom c s g trace rest

/-- The plan of a path of edges from the root to the sink. -/
def decode (c : SearchSetting) (s : Search) (path : List Nat) : CostedPlan where
  cost := path.foldl (fun total e => Cost.add total ((s.edges[e]?.map Edge.cost).getD 0)) 0
  plan :=
    match c.group with
    | none => s.operators path
    | some g => decodeFrom c s g (g.canonicalState c.task.initial).2 path

end RankedPlans.Search
