import RankedPlans.Digest.Basic
import RankedPlans.Json.Bytes
import RankedPlans.Json.Record

/-!
Results of an enumeration: the plans by ascending cost, why it ended, and counters of its work. A
result holds no clock time, so its canonical text and digest depend only on task, request and policy.
-/

namespace RankedPlans

/-- A plan by the names of its operators. -/
structure PlanRecord where
  cost : Int
  actions : List String
deriving DecidableEq, Repr, Inhabited

/-- Why an enumeration ended. -/
inductive Termination where
  /-- As many plans as asked for were found. -/
  | planLimitReached
  /-- All further plans cost more than the quality factor allows. -/
  | qualityBoundReached
  /-- There are no further plans. -/
  | exhausted
  /-- There is no plan. -/
  | unsolvable
  | timeout
  /-- The search holds as many states as it may. -/
  | resourceExhausted
deriving DecidableEq, Repr, Inhabited

/-- Counters of the work done. -/
structure Statistics where
  expanded : Nat := 0
  generated : Nat := 0
  evaluated : Nat := 0
  reopened : Nat := 0
  deadEnds : Nat := 0
  /-- Successors that gave way to a symmetric state. -/
  pruned : Nat := 0
  /-- Search batches after the first plan. -/
  batches : Nat := 0
  /-- Snapshots whose paths were enumerated. -/
  rounds : Nat := 0
  candidates : Nat := 0
  duplicates : Nat := 0
  generators : Nat := 0
  states : Nat := 0
  edges : Nat := 0
deriving DecidableEq, Repr, Inhabited

structure Result where
  plans : List PlanRecord
  optimalCost : Option Int
  unsolvable : Bool
  timedOut : Bool
  outOfStates : Bool
  termination : Termination
  statistics : Statistics
deriving DecidableEq, Repr, Inhabited

namespace PlanRecord

def toJson (p : PlanRecord) : Json :=
  .object [("cost", .integer p.cost), ("actions", .array (p.actions.map .string))]

def read? (w : Json.Written) : Option PlanRecord := do
  match ← w.fields? [⟨"cost", .required⟩, ⟨"actions", .required⟩] with
  | [cost, actions] =>
    let cost ← Json.required? Json.Written.int64? cost
    let actions ← Json.required? (Json.Written.list? Json.Written.string?) actions
    return ⟨cost, actions⟩
  | _ => none

end PlanRecord

namespace Termination

/-- Every reason with its name in records. -/
def names : List (String × Termination) :=
  [("plan_limit_reached", planLimitReached), ("quality_bound_reached", qualityBoundReached),
    ("exhausted", exhausted), ("unsolvable", unsolvable), ("timeout", timeout),
    ("resource_exhausted", resourceExhausted)]

def name : Termination → String
  | planLimitReached => "plan_limit_reached"
  | qualityBoundReached => "quality_bound_reached"
  | exhausted => "exhausted"
  | unsolvable => "unsolvable"
  | timeout => "timeout"
  | resourceExhausted => "resource_exhausted"

end Termination

namespace Statistics

/-- The counters with their names in records, in order. -/
def counters (s : Statistics) : List (String × Nat) :=
  [("expanded", s.expanded), ("generated", s.generated), ("evaluated", s.evaluated),
    ("reopened", s.reopened), ("dead_ends", s.deadEnds), ("pruned_by_symmetry", s.pruned),
    ("astar_rounds", s.batches), ("eppstein_rounds", s.rounds), ("candidates_popped", s.candidates),
    ("duplicates_dropped", s.duplicates), ("symmetry_generators", s.generators),
    ("states", s.states), ("graph_edges", s.edges)]

def toJson (s : Statistics) : Json :=
  .object (s.counters.map fun (name, n) => (name, .integer n))

def read? (w : Json.Written) : Option Statistics := do
  let fields := (counters {}).map fun (name, _) => (⟨name, .required⟩ : Json.Field)
  match ← (← w.fields? fields).mapM (Json.required? Json.Written.nat64?) with
  | [expanded, generated, evaluated, reopened, deadEnds, pruned, batches, rounds, candidates,
      duplicates, generators, states, edges] =>
    return ⟨expanded, generated, evaluated, reopened, deadEnds, pruned, batches, rounds, candidates,
      duplicates, generators, states, edges⟩
  | _ => none

end Statistics

namespace Result

def toJson (r : Result) : Json :=
  .object [("plans", .array (r.plans.map PlanRecord.toJson)),
    ("optimal_cost", (r.optimalCost.map Json.integer).getD .null),
    ("unsolvable", .bool r.unsolvable), ("timeout_triggered", .bool r.timedOut),
    ("memory_limit_triggered", .bool r.outOfStates),
    ("termination", .string r.termination.name), ("statistics", r.statistics.toJson)]

/-- The canonical text. All numbers of a result are integers. -/
def canonical (r : Result) : String :=
  r.toJson.sortKeys.text

/-- The digest of the canonical text. -/
def digest (r : Result) : ContentHash :=
  .ofText .planningResult r.canonical

/-- The plans alone, as an object of one member. -/
def plansJson (r : Result) : Json :=
  .object [("plans", .array (r.plans.map PlanRecord.toJson))]

/-- The canonical text of the plans alone. -/
def canonicalPlans (r : Result) : String :=
  r.plansJson.sortKeys.text

/-- The digest of the plans alone. -/
def plansDigest (r : Result) : ContentHash :=
  .ofText .plan r.canonicalPlans

def read? (w : Json.Written) : Option Result := do
  let fields := [⟨"plans", .required⟩, ⟨"optimal_cost", .optional⟩, ⟨"unsolvable", .required⟩,
    ⟨"timeout_triggered", .required⟩, ⟨"memory_limit_triggered", .required⟩,
    ⟨"termination", .required⟩, ⟨"statistics", .required⟩]
  match ← w.fields? fields with
  | [plans, optimal, unsolvable, timedOut, outOfStates, termination, statistics] =>
    let plans ← Json.required? (Json.Written.list? PlanRecord.read?) plans
    let optimalCost ← Json.optional? Json.Written.int64? optimal
    let unsolvable ← Json.required? Json.Written.bool? unsolvable
    let timedOut ← Json.required? Json.Written.bool? timedOut
    let outOfStates ← Json.required? Json.Written.bool? outOfStates
    let termination ← Json.required? (Json.Written.choice? Termination.names) termination
    let statistics ← Json.required? Statistics.read? statistics
    return ⟨plans, optimalCost, unsolvable, timedOut, outOfStates, termination, statistics⟩
  | _ => none

/-- The result that a text holds. -/
def parse? (text : String) : Option Result :=
  (Json.Written.parse? text).bind read?

/-- The result that some bytes hold. -/
def ofBytes? (bytes : List UInt8) : Option Result :=
  (Json.Written.ofBytes? bytes).bind read?

end Result

end RankedPlans
