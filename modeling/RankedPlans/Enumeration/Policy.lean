import RankedPlans.Json.Record

/-!
Policies: how an enumeration is carried out. The size of a search batch is a share of the expansions
so far; further fields rule reopening, the number of states, reorderings and the use of symmetries.
-/

namespace RankedPlans

/-- How symmetries are found and used. -/
structure SymmetryPolicy where
  /-- Symmetric states are merged during the search. -/
  pruneSearch : Bool := false
  /-- Symmetric plans count as the same. -/
  mergePlans : Bool := false
  /-- Symmetric images of accepted plans are offered too. -/
  extendPlans : Bool := false
  /-- Only symmetries that fix the initial state are used during the search. -/
  fixInitial : Bool := false
  /-- How many nodes the search for symmetries may visit. -/
  searchNodes : Nat := 100000
  /-- How many images of a plan are looked at. -/
  orbitSize : Nat := 1000
deriving DecidableEq, Repr, Inhabited

structure Policy where
  /-- The least size of a batch, in percent of the expansions so far. -/
  leastPercent : Nat := 1
  /-- The greatest size of a batch, in percent of the expansions so far. -/
  mostPercent : Nat := 5
  /-- A closed node is opened again when a cheaper path to it is found. -/
  reopen : Bool := true
  /-- A batch ends as soon as it reaches a goal state. -/
  stopAtGoal : Bool := false
  /-- How many distinct states the search may hold. -/
  stateLimit : Option Nat := none
  /-- Other valid orders of an accepted plan are offered too. -/
  reorderPlans : Bool := false
  /-- How many beginnings of plans are visited for the reorderings of one plan. -/
  reorderNodes : Nat := 100000
  symmetry : SymmetryPolicy := {}
deriving DecidableEq, Repr, Inhabited

namespace SymmetryPolicy

/-- Whether symmetries are used at all. -/
def inUse (p : SymmetryPolicy) : Bool :=
  p.pruneSearch || p.mergePlans || p.extendPlans

def toJson (p : SymmetryPolicy) : Json :=
  .object [("search_pruning", .bool p.pruneSearch), ("plan_canonicalization", .bool p.mergePlans),
    ("extend_plans", .bool p.extendPlans), ("stabilize_initial_state", .bool p.fixInitial),
    ("max_search_nodes", .integer p.searchNodes), ("max_orbit_size", .integer p.orbitSize)]

/-- Reads a record of which every field may be missing. -/
def read? (w : Json.Written) : Option SymmetryPolicy := do
  let fields := [⟨"search_pruning", .defaulted⟩, ⟨"plan_canonicalization", .defaulted⟩,
    ⟨"extend_plans", .defaulted⟩, ⟨"stabilize_initial_state", .defaulted⟩,
    ⟨"max_search_nodes", .defaulted⟩, ⟨"max_orbit_size", .defaulted⟩]
  let d : SymmetryPolicy := {}
  match ← w.fields? fields with
  | [prune, merge, extend, fix, nodes, orbit] =>
    let pruneSearch ← Json.defaulted? Json.Written.bool? d.pruneSearch prune
    let mergePlans ← Json.defaulted? Json.Written.bool? d.mergePlans merge
    let extendPlans ← Json.defaulted? Json.Written.bool? d.extendPlans extend
    let fixInitial ← Json.defaulted? Json.Written.bool? d.fixInitial fix
    let searchNodes ← Json.defaulted? Json.Written.nat64? d.searchNodes nodes
    let orbitSize ← Json.defaulted? Json.Written.nat64? d.orbitSize orbit
    return { pruneSearch, mergePlans, extendPlans, fixInitial, searchNodes, orbitSize }
  | _ => none

end SymmetryPolicy

namespace Policy

/-- Why a policy cannot be followed. -/
inductive Fault where
  | inverted (least most : Nat)
  | aboveWhole (most : Nat)
  | mergeAndExtend
deriving DecidableEq, Repr

/-- The wording of a fault. -/
def Fault.message : Fault → String
  | inverted least most =>
    s!"invalid engine policy: openlist_inc_percent_lb ({least}) exceeds openlist_inc_percent_ub ({most})"
  | aboveWhole most => s!"invalid engine policy: openlist_inc_percent_ub ({most}) exceeds 100"
  | mergeAndExtend =>
    "invalid engine policy: plan_canonicalization and extend_plans cannot both be enabled"

/-- The first fault of a policy. -/
def fault? (p : Policy) : Option Fault :=
  if p.mostPercent < p.leastPercent then some (.inverted p.leastPercent p.mostPercent)
  else if 100 < p.mostPercent then some (.aboveWhole p.mostPercent)
  else if p.symmetry.mergePlans ∧ p.symmetry.extendPlans then some .mergeAndExtend
  else none

def toJson (p : Policy) : Json :=
  .object [("openlist_inc_percent_lb", .integer p.leastPercent),
    ("openlist_inc_percent_ub", .integer p.mostPercent), ("reopen_closed", .bool p.reopen),
    ("switch_on_goal", .bool p.stopAtGoal),
    ("max_states", (p.stateLimit.map fun (n : Nat) => Json.integer n).getD .null),
    ("reorder_plans", .bool p.reorderPlans), ("max_reorder_nodes", .integer p.reorderNodes),
    ("symmetry", p.symmetry.toJson)]

/-- Reads a record of which every field may be missing. -/
def read? (w : Json.Written) : Option Policy := do
  let fields := [⟨"openlist_inc_percent_lb", .defaulted⟩, ⟨"openlist_inc_percent_ub", .defaulted⟩,
    ⟨"reopen_closed", .defaulted⟩, ⟨"switch_on_goal", .defaulted⟩, ⟨"max_states", .defaulted⟩,
    ⟨"reorder_plans", .defaulted⟩, ⟨"max_reorder_nodes", .defaulted⟩, ⟨"symmetry", .defaulted⟩]
  let d : Policy := {}
  match ← w.fields? fields with
  | [least, most, reopen, stop, states, reorder, nodes, symmetry] =>
    let leastPercent ← Json.defaulted? Json.Written.nat32? d.leastPercent least
    let mostPercent ← Json.defaulted? Json.Written.nat32? d.mostPercent most
    let reopen ← Json.defaulted? Json.Written.bool? d.reopen reopen
    let stopAtGoal ← Json.defaulted? Json.Written.bool? d.stopAtGoal stop
    let stateLimit ← Json.optional? Json.Written.nat64? states
    let reorderPlans ← Json.defaulted? Json.Written.bool? d.reorderPlans reorder
    let reorderNodes ← Json.defaulted? Json.Written.nat64? d.reorderNodes nodes
    let symmetry ← Json.defaulted? SymmetryPolicy.read? d.symmetry symmetry
    return ⟨leastPercent, mostPercent, reopen, stopAtGoal, stateLimit, reorderPlans, reorderNodes,
      symmetry⟩
  | _ => none

/-- The policy that a text holds. -/
def parse? (text : String) : Option Policy :=
  (Json.Written.parse? text).bind read?

end Policy

end RankedPlans
