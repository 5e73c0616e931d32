import RankedPlans.Proofs.Enumeration.Exactness

/-! An enumeration whose search is pruned by symmetries. The paths of the recorded graph lead through
representatives, and the root may be another state than the initial one, yet what the paths decode to are the
plans of the task at their costs. So the result is as exact as that of a search through all states. -/

namespace RankedPlans

open Search (root)

variable {t : Task} {h : Heuristic} {r : Request} {p : Policy} {c : EnumerationSetting}
  {key : Plan → List Nat} {res : Result} {plans : List CostedPlan}

/-- If plans of one key cost the same, the first plan of an exact result is one of the cheapest. -/
theorem Result.Exact.optimalCost_eq_head {first : CostedPlan} (hexact : res.Exact t key r plans)
    (hkey : ∀ plan plan' cost cost', t.planCost? plan = some cost → t.planCost? plan' = some cost' →
      key plan = key plan' → cost = cost')
    (hfirst : plans.head? = some first) : res.optimalCost = some first.cost := by
  obtain ⟨rest, rfl⟩ := List.head?_eq_some_iff.mp hfirst
  have hleading := hexact.best.leading
  have hvalid := hleading.valid first (List.mem_cons_self ..)
  cases hleast : res.optimalCost with
  | none => cases hexact.unknown hleast
  | some least =>
    obtain ⟨⟨plan, hplan⟩, hle⟩ := hexact.optimal least hleast
    -- Otherwise a cheapest plan has the key of a listed one, which is not cheaper than the first.
    have hge : first.cost ≤ least := by
      by_contra hlt
      obtain ⟨q, hq, hsame⟩ := List.mem_map.mp
        (hleading.cheaper first (List.mem_cons_self ..) plan least hplan (by omega))
      have hcost := hkey q.plan plan q.cost least (hleading.valid q hq) hplan hsame
      rcases List.mem_cons.mp hq with rfl | hq
      · omega
      · have := (List.pairwise_cons.mp hleading.sorted).1 q hq
        omega
    rw [Int.le_antisymm (hle ⟨first.plan, hvalid⟩) hge]

/-- Whenever an enumeration without a clock gives a result, its search being pruned by symmetries or not, and
sums of costs stay in range, the result lists the cheapest plans by their keys, and the first of them costs
as little as any plan of the task. -/
theorem Task.enumerate?_pruned (hset : t.enumerationSetting h r p = .ok c)
    (hadm : h.AdmissibleOnStates t) (hclock : r.milliseconds = none) (hreopen : p.reopen = true)
    (hrange : ∀ s, Search.Faultless c.search s → s.graph.InRange root) {steps : Nat}
    (hres : t.enumerate? h r p steps = some (.ok res)) :
    ∃ plans, res.Exact t c.selection.keyOf r plans ∧
      ∀ first, res.plans.head? = some first → res.optimalCost = some first.cost := by
  have hc := certifying_of_enumerationSetting hset hadm.admissible hclock hreopen (fun _ => hadm) hrange
  obtain ⟨plans, hexact, htop⟩ := hc.exists_answers hset hres
  obtain ⟨preserved, rfl⟩ := enumerationSetting_eq hset
  refine ⟨plans, hexact, fun first hfirst => ?_⟩
  rw [hexact.plans_eq, List.head?_map] at hfirst
  obtain ⟨head, hhead, rfl⟩ := Option.map_eq_some_iff.mp hfirst
  have hleast := hexact.optimalCost_eq_head
    (fun plan plan' cost cost' => hc.selection.cost_eq_of_keyOf_eq) hhead
  rw [hleast, Int.min_eq_right (htop _ hleast)]

namespace Search

theorem twoSwitches_cost_le (op : Nat) : (twoSwitches.operator op).cost ≤ 1 := by
  match op with
  | 0 => decide
  | 1 => decide
  | op + 2 =>
    rw [Task.operator, Array.getD_eq_getD_getElem?, Array.getElem?_eq_none (by simp [twoSwitches])]
    decide

end Search

/-- The search is pruned, and the symmetries may move the initial state. -/
def pruning : Policy := { symmetry := { pruneSearch := true } }

/-- The initial state has one of two switches on that are alike, and the search starts from the state with
the other one on. Still the plan flips the switch that is off. -/
theorem Task.enumerate?_pruned_twoSwitches : ∃ res plans,
    Search.twoSwitches.enumerate? .blind threePlans pruning 40 = some (.ok res) ∧
    res.plans = [⟨1, ["flip b"]⟩, ⟨2, ["flip a", "flip b"]⟩, ⟨2, ["flip b", "flip b"]⟩] ∧
    IsLeast Search.twoSwitches.planCosts 1 ∧
    res.Exact Search.twoSwitches PlanKey.ordered.encode threePlans plans := by
  have hset : Search.twoSwitches.enumerationSetting .blind threePlans pruning =
      .ok (.ofRequest Search.twoSwitches .blind threePlans none pruning) := rfl
  have hvalue : ((Search.twoSwitches.enumerate? .blind threePlans pruning 40).bind
      Except.toOption).map Result.plans =
      some [⟨1, ["flip b"]⟩, ⟨2, ["flip a", "flip b"]⟩, ⟨2, ["flip b", "flip b"]⟩] := by
    decide +kernel
  obtain ⟨res, hrun, hplans⟩ := exists_ok_of_map_eq hvalue
  have hadm := Heuristic.blind_admissibleOnStates Search.twoSwitches
  obtain ⟨plans, hexact, hfirst⟩ := Task.enumerate?_pruned hset hadm rfl rfl
    (fun s hs => (hs.progress rfl).1.recorded.inRange_of_states (symmetric_ofRequest none fun _ => hadm)
      Search.twoSwitches_cost_le (by decide +kernel)) hrun
  exact ⟨res, plans, hrun, hplans, hexact.optimal 1 (hfirst ⟨1, ["flip b"]⟩ (by rw [hplans]; rfl)),
    hexact⟩

end RankedPlans
