import RankedPlans.Cost
import RankedPlans.Enumeration.Policy
import RankedPlans.Enumeration.Request
import RankedPlans.Enumeration.Result

/-!
When an enumeration takes its next plan, searches on or stops. A plan may be taken once no waiting
node can lead to a cheaper one; the quality bound ends the enumeration once every waiting node is
above it.
-/

namespace RankedPlans

/-- What to do next. -/
inductive Verdict where
  | accept
  | stop (reason : Termination)
  /-- Search on. The threshold is how far the waiting plan, if there is one, lies above the least
  cost. -/
  | search (threshold : Option Int)
deriving DecidableEq, Repr

/-- Least and greatest number of expansions of a batch. -/
structure BatchBounds where
  least : Nat
  most : Nat
deriving DecidableEq, Repr

/-- What verdicts go by. -/
structure StopRule where
  count : Option Nat
  /-- The greatest cost that the quality factor allows. -/
  bound : Option Int
  /-- The least cost of a plan. -/
  optimal : Int
  /-- Whether the time is up. -/
  expired : Bool
deriving DecidableEq, Repr

namespace Policy

/-- A share of the expansions so far, at least one. -/
def share (percent expanded : Nat) : Nat :=
  max 1 (min (expanded * percent) nat64Max / 100)

/-- The size of the next batch. -/
def batchBounds (p : Policy) (expanded : Nat) : BatchBounds :=
  ⟨share p.leastPercent expanded, share p.mostPercent expanded⟩

end Policy

namespace StopRule

/-- The rule of a request whose cheapest plan is known. -/
def ofRequest (r : Request) (optimal : Int) (expired : Bool) : StopRule :=
  ⟨r.count, r.costBound? optimal, optimal, expired⟩

/-- Whether as many plans are collected as asked for. -/
def limitReached (r : StopRule) (collected : Nat) : Bool :=
  r.count.any (· ≤ collected)

/-- The verdict without a waiting plan. -/
def judgeEnd (r : StopRule) (frontier : Option Int) : Verdict :=
  match frontier with
  | none => .stop .exhausted
  | some f => if r.bound.any (· < f) then .stop .qualityBoundReached else .search none

/-- The verdict on a waiting plan. -/
def judgePlan (r : StopRule) (cost : Int) (frontier : Option Int) : Verdict :=
  match r.bound.filter (· < cost) with
  | some bound =>
    match frontier with
    | some f =>
      if f ≤ bound then .search (some (bound + 1 - r.optimal)) else .stop .qualityBoundReached
    | none => .stop .qualityBoundReached
  | none =>
    match frontier with
    | some f => if f < cost then .search (some (cost - r.optimal)) else .accept
    | none => .accept

/-- The verdict on the next plan, if there is one, beside the least sum of cost and estimate of the
waiting nodes. Time goes first, then the number of plans. -/
def judge (r : StopRule) (collected : Nat) (next frontier : Option Int) : Verdict :=
  if r.expired then .stop .timeout
  else if r.limitReached collected then .stop .planLimitReached
  else
    match next with
    | none => r.judgeEnd frontier
    | some cost => r.judgePlan cost frontier

/-- Whether a batch may end after so many expansions. -/
def batchDone (r : StopRule) (steps : Nat) (bounds : BatchBounds) (threshold frontier : Option Int) :
    Bool :=
  match frontier with
  | none => true
  | some f =>
    if bounds.most ≤ steps then true
    else
      match threshold with
      | some t => Cost.add r.optimal t ≤ f
      | none => bounds.least ≤ steps || r.bound.any (· < f)

end StopRule

end RankedPlans
