import RankedPlans.Enumeration.Termination
import RankedPlans.Proofs.Cost

/-! What each verdict means. A path is taken if it is within the bound and no waiting node can lead to a
cheaper one; the enumeration stops for the bound if both the next path and all waiting nodes are beyond
it. Otherwise the search goes on until all waiting nodes have reached the ceiling of the next path, which is where a
batch ends as well. -/

namespace RankedPlans.StopRule

variable {r : StopRule} {n : Nat} {next frontier : Option Int} {reason : Termination}

theorem judgeEnd_stop (h : r.judgeEnd frontier = .stop reason) :
    (reason = .exhausted ∧ frontier = none) ∨ reason = .qualityBoundReached ∧
      ∃ bound, r.bound = some bound ∧ ∀ f, frontier = some f → bound < f := by
  unfold judgeEnd at h
  split at h
  · exact .inl ⟨(Verdict.stop.inj h).symm, rfl⟩
  · rename_i f
    split at h
    · rename_i hany
      obtain ⟨bound, hbound, hlt⟩ := (Option.any_eq_true ..).mp hany
      refine .inr ⟨(Verdict.stop.inj h).symm, bound, hbound, fun f' hf => ?_⟩
      rw [← Option.some.inj hf]
      exact of_decide_eq_true hlt
    · cases h

theorem judgePlan_cases (r : StopRule) (cost : Int) (frontier : Option Int) :
    (∃ threshold, r.judgePlan cost frontier = .search threshold) ∨
    (r.judgePlan cost frontier = .accept ∧ (∀ bound, r.bound = some bound → cost ≤ bound) ∧
      ∀ f, frontier = some f → cost ≤ f) ∨
    r.judgePlan cost frontier = .stop .qualityBoundReached ∧
      ∃ bound, r.bound = some bound ∧ bound < cost ∧ ∀ f, frontier = some f → bound < f := by
  unfold judgePlan
  cases hfilter : r.bound.filter (· < cost) with
  | some bound =>
    obtain ⟨hbound, hlt⟩ := Option.filter_eq_some_iff.mp hfilter
    have hlt := of_decide_eq_true hlt
    cases frontier with
    | none => exact .inr (.inr ⟨rfl, bound, hbound, hlt, nofun⟩)
    | some f =>
      by_cases hle : f ≤ bound
      · exact .inl ⟨_, if_pos hle⟩
      · refine .inr (.inr ⟨if_neg hle, bound, hbound, hlt, fun f' hf => ?_⟩)
        rw [← Option.some.inj hf]
        omega
  | none =>
    have hwithin : ∀ bound, r.bound = some bound → cost ≤ bound := by
      intro bound hbound
      rw [hbound, Option.filter_eq_none_iff] at hfilter
      have := hfilter bound rfl
      rw [decide_eq_true_iff] at this
      omega
    cases frontier with
    | none => exact .inr (.inl ⟨rfl, hwithin, nofun⟩)
    | some f =>
      by_cases hlt : f < cost
      · exact .inl ⟨_, if_pos hlt⟩
      · refine .inr (.inl ⟨if_neg hlt, hwithin, fun f' hf => ?_⟩)
        rw [← Option.some.inj hf]
        omega

/-- A path that is taken is within the bound, and no estimate is lower. -/
theorem judge_accept (h : r.judge n next frontier = .accept) : r.limitReached n = false ∧
    ∃ cost, next = some cost ∧ (∀ bound, r.bound = some bound → cost ≤ bound) ∧
      ∀ f, frontier = some f → cost ≤ f := by
  unfold judge at h
  split at h
  · cases h
  · split at h
    · cases h
    · rename_i hlimit
      refine ⟨eq_false_of_ne_true hlimit, ?_⟩
      cases next with
      | none =>
        simp only [judgeEnd] at h
        split at h
        · cases h
        · split at h <;> cases h
      | some cost =>
        rcases r.judgePlan_cases cost frontier with ⟨_, heq⟩ | ⟨-, hwithin⟩ | ⟨heq, -⟩
        · cases heq.symm.trans h
        · exact ⟨cost, rfl, hwithin⟩
        · cases heq.symm.trans h

/-- A path that is not taken, though more plans are wanted, is beyond the bound or undercut by an estimate. -/
theorem judge_ne_accept (hclock : r.expired = false) (h : r.judge n next frontier ≠ .accept) :
    r.limitReached n = true ∨ ∀ cost, next = some cost →
      (∃ bound, r.bound = some bound ∧ bound < cost) ∨ ∃ f, frontier = some f ∧ f < cost := by
  unfold judge at h
  rw [hclock, if_neg Bool.false_ne_true] at h
  cases hlimit : r.limitReached n with
  | true => exact .inl rfl
  | false =>
    rw [hlimit, if_neg Bool.false_ne_true] at h
    refine .inr fun cost hnext => ?_
    subst hnext
    simp only [judgePlan] at h
    cases hfilter : r.bound.filter (· < cost) with
    | some bound =>
      obtain ⟨hbound, hlt⟩ := Option.filter_eq_some_iff.mp hfilter
      exact .inl ⟨bound, hbound, of_decide_eq_true hlt⟩
    | none =>
      rw [hfilter] at h
      cases frontier with
      | none => exact absurd rfl h
      | some f =>
        by_cases hlt : f < cost
        · exact .inr ⟨f, rfl, hlt⟩
        · exact absurd (if_neg hlt) h

/-- The search goes on only if a node waits. -/
theorem judge_search {threshold : Option Int} (h : r.judge n next frontier = .search threshold) :
    frontier ≠ none := by
  rintro rfl
  unfold judge at h
  split at h
  · cases h
  · split at h
    · cases h
    · cases next with
      | none => cases h
      | some cost =>
        simp only [judgePlan] at h
        cases hfilter : r.bound.filter (· < cost) <;> rw [hfilter] at h <;> cases h

/-- Apart from the clock, an enumeration stops when it has enough plans, when nothing is left, or when
all that is left is beyond the bound. -/
theorem judge_stop (hclock : r.expired = false) (h : r.judge n next frontier = .stop reason) :
    (reason = .planLimitReached ∧ r.limitReached n = true) ∨
    (reason = .exhausted ∧ next = none ∧ frontier = none) ∨
    reason = .qualityBoundReached ∧ ∃ bound, r.bound = some bound ∧
      (∀ cost, next = some cost → bound < cost) ∧ ∀ f, frontier = some f → bound < f := by
  unfold judge at h
  rw [hclock, if_neg Bool.false_ne_true] at h
  split at h
  · rename_i hlimit
    exact .inl ⟨(Verdict.stop.inj h).symm, hlimit⟩
  · refine .inr ?_
    cases next with
    | none =>
      rcases judgeEnd_stop h with ⟨rfl, hnone⟩ | ⟨rfl, bound, hbound, hbeyond⟩
      · exact .inl ⟨rfl, rfl, hnone⟩
      · exact .inr ⟨rfl, bound, hbound, nofun, hbeyond⟩
    | some cost =>
      rcases r.judgePlan_cases cost frontier with ⟨_, heq⟩ | ⟨heq, -⟩ |
        ⟨heq, bound, hbound, hlt, hbeyond⟩
      · cases heq.symm.trans h
      · cases heq.symm.trans h
      · refine .inr ⟨(Verdict.stop.inj (heq.symm.trans h)).symm, bound, hbound, ?_, hbeyond⟩
        intro cost' hcost
        exact Option.some.inj hcost ▸ hlt

section Ceiling

variable {cost : Int} {threshold : Option Int}

/-- What the waiting nodes have to reach before there is a verdict on a path: its cost or, if it is beyond the bound,
the least cost beyond the bound. -/
def ceiling (r : StopRule) (cost : Int) : Int :=
  match r.bound.filter (· < cost) with
  | some bound => bound + 1
  | none => cost

theorem ceiling_cases (r : StopRule) (cost : Int) :
    (∃ bound, r.bound = some bound ∧ bound < cost ∧ r.ceiling cost = bound + 1) ∨ r.ceiling cost = cost := by
  unfold ceiling
  cases hfilter : r.bound.filter (· < cost) with
  | some bound =>
    obtain ⟨hbound, hlt⟩ := Option.filter_eq_some_iff.mp hfilter
    exact .inl ⟨bound, hbound, of_decide_eq_true hlt, rfl⟩
  | none => exact .inr rfl

theorem ceiling_le (r : StopRule) (cost : Int) : r.ceiling cost ≤ cost := by
  rcases r.ceiling_cases cost with ⟨bound, -, hlt, heq⟩ | heq <;> omega

theorem ceiling_nonneg (hbound : ∀ bound, r.bound = some bound → 0 ≤ bound) (hcost : 0 ≤ cost) :
    0 ≤ r.ceiling cost := by
  rcases r.ceiling_cases cost with ⟨bound, hsome, -, heq⟩ | heq
  · have := hbound bound hsome
    omega
  · rwa [heq]

theorem ite_eq_search_iff {p : Prop} [Decidable p] {verdict : Verdict} {t : Int}
    (h : verdict ≠ .search threshold) :
    (if p then Verdict.search (some t) else verdict) = .search threshold ↔ threshold = some t ∧ p := by
  split
  · rename_i hp
    simp only [Verdict.search.injEq, hp, and_true]
    exact eq_comm
  · rename_i hp
    simp only [h, hp, and_false]

/-- The search goes on for a path exactly as long as a waiting node is below the ceiling. -/
theorem judgePlan_eq_search_iff : r.judgePlan cost frontier = .search threshold ↔
    threshold = some (r.ceiling cost - r.optimal) ∧ ∃ f, frontier = some f ∧ f < r.ceiling cost := by
  unfold judgePlan ceiling
  cases r.bound.filter (· < cost) with
  | some bound =>
    cases frontier with
    | none => simp
    | some f =>
      simp only [Option.some.injEq, exists_eq_left', Int.lt_add_one_iff]
      exact ite_eq_search_iff nofun
  | none =>
    cases frontier with
    | none => simp
    | some f =>
      simp only [Option.some.injEq, exists_eq_left']
      exact ite_eq_search_iff nofun

theorem judge_eq_judgePlan (hclock : r.expired = false) (hlimit : r.limitReached n = false) (cost : Int)
    (frontier : Option Int) : r.judge n (some cost) frontier = r.judgePlan cost frontier := by
  simp [judge, hclock, hlimit]

/-- A threshold is that of a path, while more plans are wanted. -/
theorem judge_eq_search_some {t : Int} (hclock : r.expired = false) (h : r.judge n next frontier = .search (some t)) :
    r.limitReached n = false ∧ ∃ cost, next = some cost ∧ r.judgePlan cost frontier = .search (some t) := by
  unfold judge at h
  rw [hclock, if_neg Bool.false_ne_true] at h
  split at h
  · cases h
  · rename_i hlimit
    refine ⟨eq_false_of_ne_true hlimit, ?_⟩
    cases next with
    | none =>
      simp only [judgeEnd] at h
      split at h
      · cases h
      · split at h <;> cases h
    | some cost => exact ⟨cost, rfl, h⟩

/-- A batch that ends before it has run its course has brought all waiting nodes up to the threshold. -/
theorem batchDone_some {t : Int} {steps : Nat} {bounds : BatchBounds} {f : Int} (hsteps : steps < bounds.most)
    (h : r.batchDone steps bounds (some t) (some f) = true) : Cost.add r.optimal t ≤ f := by
  simp only [batchDone, Nat.not_le.mpr hsteps, if_false] at h
  exact of_decide_eq_true h

theorem le_add_ceiling (hcost : cost ≤ Cost.top) :
    r.ceiling cost ≤ Cost.add r.optimal (r.ceiling cost - r.optimal) := by
  have hle := r.ceiling_le cost
  simp only [Cost.add, Cost.bottom, Cost.top, int64Min, int64Max] at *
  omega

/-- The ceiling, its distance from the least cost and the way back fit 64 bits. -/
theorem ceiling_inRange (hbound : ∀ bound, r.bound = some bound → 0 ≤ bound) (hcost : 0 ≤ cost)
    (htop : cost ≤ Cost.top) (hoptimal : 0 ≤ r.optimal) (hoptimalTop : r.optimal ≤ Cost.top) :
    Cost.InRange (r.ceiling cost) ∧ Cost.InRange (r.ceiling cost - r.optimal) ∧
      Cost.add r.optimal (r.ceiling cost - r.optimal) = r.ceiling cost := by
  have hle := r.ceiling_le cost
  have hnonneg := ceiling_nonneg hbound hcost
  simp only [Cost.InRange, Cost.add, Cost.bottom, Cost.top, int64Min, int64Max] at *
  omega

theorem limitReached_eq_false_iff : r.limitReached n = false ↔ ∀ k, r.count = some k → n < k := by
  cases hcount : r.count <;> simp [limitReached, hcount]

/-- While time is left, a path is taken exactly if more plans are wanted, it is within the bound and no estimate is
lower. -/
theorem judge_eq_accept_iff (hclock : r.expired = false) : r.judge n next frontier = .accept ↔
    (∀ k, r.count = some k → n < k) ∧ ∃ cost, next = some cost ∧ (∀ bound, r.bound = some bound → cost ≤ bound) ∧
      ∀ f, frontier = some f → cost ≤ f := by
  rw [← limitReached_eq_false_iff]
  refine ⟨judge_accept, fun ⟨hlimit, cost, hnext, hbound, hfrontier⟩ => Classical.byContradiction fun hne => ?_⟩
  rcases judge_ne_accept hclock hne with hreached | hbeyond
  · exact Bool.false_ne_true (hlimit.symm.trans hreached)
  · rcases hbeyond cost hnext with ⟨bound, hsome, hlt⟩ | ⟨f, hsome, hlt⟩
    · exact Int.not_lt.mpr (hbound bound hsome) hlt
    · exact Int.not_lt.mpr (hfrontier f hsome) hlt

/-- A batch that the threshold of a path has ended leaves nothing to search for before a verdict on the path. -/
theorem judge_ne_search_of_batchDone {steps : Nat} {bounds : BatchBounds} {later : Option Int}
    (hclock : r.expired = false) (hlimit : r.limitReached n = false) (htop : cost ≤ Cost.top)
    (hsteps : steps < bounds.most)
    (hdone : r.batchDone steps bounds (some (r.ceiling cost - r.optimal)) later = true) :
    r.judge n (some cost) later ≠ .search threshold := by
  intro hagain
  rw [judge_eq_judgePlan hclock hlimit] at hagain
  obtain ⟨-, f, rfl, hlt⟩ := judgePlan_eq_search_iff.mp hagain
  have hreached : r.ceiling cost ≤ f := Int.le_trans (le_add_ceiling htop) (batchDone_some hsteps hdone)
  exact Int.not_lt.mpr hreached hlt

/-- While time is left: a path is taken exactly if more plans are wanted, it is within the bound and no waiting node is
below it; the enumeration stops for the bound only if neither the path, if there is one, nor a waiting node is within
it, and for want of plans only if there is neither; and it searches on only if a node waits. A batch whose end is due
to the threshold of a path leaves a verdict on the path other than to search on. For numbers that are not negative all
sums on the way to the threshold and back stay within 64 bits. -/
theorem judge_agrees (r : StopRule) (hclock : r.expired = false) (n : Nat) (next frontier : Option Int) :
    (r.judge n next frontier = .accept ↔ (∀ k, r.count = some k → n < k) ∧
      ∃ cost, next = some cost ∧ (∀ bound, r.bound = some bound → cost ≤ bound) ∧
        ∀ f, frontier = some f → cost ≤ f) ∧
    (r.judge n next frontier = .stop .qualityBoundReached → ∃ bound, r.bound = some bound ∧
      (∀ cost, next = some cost → bound < cost) ∧ ∀ f, frontier = some f → bound < f) ∧
    (r.judge n next frontier = .stop .exhausted → next = none ∧ frontier = none) ∧
    (∀ threshold, r.judge n next frontier = .search threshold → frontier ≠ none) ∧
    ∀ t, r.judge n next frontier = .search (some t) → ∃ cost, next = some cost ∧ (cost ≤ Cost.top →
      (∀ steps bounds later, steps < bounds.most → r.batchDone steps bounds (some t) later = true →
        ∀ threshold, r.judge n next later ≠ .search threshold) ∧
      (0 ≤ cost → 0 ≤ r.optimal → r.optimal ≤ Cost.top → (∀ bound, r.bound = some bound → 0 ≤ bound) →
        Cost.InRange (r.ceiling cost) ∧ t = r.ceiling cost - r.optimal ∧ Cost.InRange t ∧
          Cost.add r.optimal t = r.ceiling cost)) := by
  refine ⟨judge_eq_accept_iff hclock, fun h => ?_, fun h => ?_, fun _ => judge_search, fun t h => ?_⟩
  · rcases judge_stop hclock h with ⟨heq, -⟩ | ⟨heq, -⟩ | ⟨-, hbeyond⟩
    · cases heq
    · cases heq
    · exact hbeyond
  · rcases judge_stop hclock h with ⟨heq, -⟩ | ⟨-, hnone⟩ | ⟨heq, -⟩
    · cases heq
    · exact hnone
    · cases heq
  · obtain ⟨hlimit, cost, rfl, hjudge⟩ := judge_eq_search_some hclock h
    obtain rfl := Option.some.inj (judgePlan_eq_search_iff.mp hjudge).1
    refine ⟨cost, rfl, fun htop => ⟨fun steps bounds later hsteps hdone threshold =>
      judge_ne_search_of_batchDone hclock hlimit htop hsteps hdone, fun hcost hoptimal hoptimalTop hbound => ?_⟩⟩
    obtain ⟨hceiling, hthreshold, hsum⟩ := ceiling_inRange hbound hcost htop hoptimal hoptimalTop
    exact ⟨hceiling, rfl, hthreshold, hsum⟩

/-- With a bound of six, a path of cost ten waits until the nodes have reached seven, and is given up then. -/
theorem judge_agrees_beyond : (⟨none, some 6, 4, false⟩ : StopRule).judge 1 (some 10) (some 5) = .search (some 3) ∧
    (⟨none, some 6, 4, false⟩ : StopRule).batchDone 1 ⟨1, 100⟩ (some 3) (some 7) = true ∧
    ∀ threshold, (⟨none, some 6, 4, false⟩ : StopRule).judge 1 (some 10) (some 7) ≠ .search threshold := by
  have hsearch : (⟨none, some 6, 4, false⟩ : StopRule).judge 1 (some 10) (some 5) = .search (some 3) := by decide
  have hdone : (⟨none, some 6, 4, false⟩ : StopRule).batchDone 1 ⟨1, 100⟩ (some 3) (some 7) = true := by decide
  obtain ⟨-, -, -, -, hagrees⟩ := judge_agrees ⟨none, some 6, 4, false⟩ rfl 1 (some 10) (some 5)
  obtain ⟨cost, heq, hbatch⟩ := hagrees 3 hsearch
  obtain rfl := Option.some.inj heq
  exact ⟨hsearch, hdone, (hbatch (by decide)).1 1 ⟨1, 100⟩ (some 7) (by decide) hdone⟩

end Ceiling

end RankedPlans.StopRule
