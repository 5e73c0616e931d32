import RankedPlans.Proofs.Search.Reopening

/-! The order in which nodes are expanded. Under consistent estimates the sum of cost and estimate of the node
that a step expands bounds the sums of all nodes that wait then or ever after, so these sums never fall. The
sink is left out: it has no estimate and may wait below the nodes of goal states. -/

namespace RankedPlans.Search

variable {c : SearchSetting} {s s' : Search} {v w : Nat} {x : State} {cost f f' : Int} {fs : List Int}

/-- A search, and the sums of cost and estimate of the nodes it has expanded, in this order. -/
inductive Expands (c : SearchSetting) : Search → List Int → Prop
  | start {s : Search} : start c = .ok s → Expands c s []
  | step {s : Search} {fs : List Int} : Expands c s fs →
      Expands c (s.step c).1 (fs ++ (s.nextEstimate? c).toList)
  | leastEstimate {s : Search} {fs : List Int} : Expands c s fs → Expands c s.leastEstimate?.2 fs

/-- No node but the sink waits with a lower sum of cost and estimate. -/
def Floor (f : Int) (s : Search) : Prop :=
  ∀ ⦃w : Nat⦄, w ≠ sink → (s.node w).status = .waiting →
    f ≤ Cost.add (s.node w).cost (s.node w).estimate

theorem Floor.mono (h : Floor f' s) (hle : f ≤ f') : Floor f s :=
  fun _ hw hwaiting => Int.le_trans hle (h hw hwaiting)

namespace Expands

theorem faultless (h : Expands c s fs) (hc : c.Consistent) : Faultless c s := by
  induction h with
  | start h => exact .start h
  | step _ ih => exact ih.step (ih.underway.1.step_ne_failed hc.grouped hc.nonnegative)
  | leastEstimate _ ih => exact ih.leastEstimate

end Expands

end RankedPlans.Search
