import RankedPlans.Proofs.Enumeration.Result
import RankedPlans.Proofs.Enumeration.Run
import RankedPlans.Report.Basic

/-! The costs in a result. Every cost of an enumeration is a sum that stops at the ends of the signed 64-bit range, so
records can hold the costs of its result, whatever the heuristic answers. -/

namespace RankedPlans

section Paths

variable {distances : Array (Option Int)}

/-- All distances known so far are in range. -/
def PathSearch.InRange (s : PathSearch) : Prop :=
  ∀ (v : Nat) (distance : Int), s.distances[v]? = some (some distance) → Cost.InRange distance

theorem inRange_setIfInBounds {v : Nat} {cost : Int} (hcost : Cost.InRange cost)
    (h : ∀ (w : Nat) (distance : Int), distances[w]? = some (some distance) → Cost.InRange distance) (w : Nat)
    (distance : Int) (hw : (distances.setIfInBounds v (some cost))[w]? = some (some distance)) :
    Cost.InRange distance := by
  rw [Array.getElem?_setIfInBounds] at hw
  split at hw
  · split at hw
    · cases hw
      exact hcost
    · cases hw
  · exact h w distance hw

namespace PathSearch

variable {s : PathSearch}

theorem start_inRange (nodes root : Nat) : (start nodes root).InRange := by
  refine inRange_setIfInBounds Cost.inRange_zero fun w distance hw => ?_
  rw [Array.getElem?_replicate] at hw
  split at hw <;> cases hw

theorem InRange.relax (h : s.InRange) (distance : Int) (e : Nat) (edge : Edge) : (relax distance s e edge).InRange := by
  unfold PathSearch.relax
  dsimp only
  -- whether there is a distance to compare with makes no difference
  split
  all_goals
    split
    · exact inRange_setIfInBounds (Cost.inRange_add _ _) h
    · exact h

theorem InRange.settle (h : s.InRange) (adjacency : Array (Array (Nat × Edge))) (distance : Int) (v : Nat) :
    (settle adjacency s distance v).InRange := by
  unfold PathSearch.settle
  dsimp only
  split
  · exact h
  · rw [← Array.foldl_toList]
    exact List.foldlRecOn (motive := PathSearch.InRange) _ _ h fun s hs x _ => hs.relax distance x.1 x.2

theorem InRange.run (h : s.InRange) (adjacency : Array (Array (Nat × Edge))) (fuel : Nat) :
    (run adjacency fuel s).InRange := by
  induction fuel generalizing s with
  | zero => exact h
  | succ fuel ih =>
    unfold PathSearch.run
    split
    · exact h
    · exact ih (h.settle adjacency _ _)

end PathSearch

/-- The least cost of a path is in range. -/
theorem Graph.optimalCost?_inRange (g : Graph) (root sink : Nat) {cost : Int}
    (h : (g.shortestPathTree root sink).optimalCost? = some cost) : Cost.InRange cost := by
  have hrange := (PathSearch.start_inRange g.nodes root).run g.adjacency (g.edges.size + 1)
  exact hrange sink cost (Option.join_eq_some_iff.mp h)

end Paths

theorem Search.decode_inRange (c : SearchSetting) (s : Search) (path : List Nat) :
    Cost.InRange (s.decode c path).cost :=
  List.foldlRecOn (motive := Cost.InRange) _ _ Cost.inRange_zero fun _ _ _ _ => Cost.inRange_add _ _

namespace Selection

variable {s : Selection} {r : SelectionRule} {p : CostedPlan} {cost : Int}

/-- All plans kept have costs in range. -/
def InRange (s : Selection) : Prop :=
  ∀ p ∈ s.plans, Cost.InRange p.cost

theorem InRange.insert (h : s.InRange) (r : SelectionRule) (hp : Cost.InRange p.cost) : (s.insert r p).1.InRange := by
  unfold Selection.insert
  split
  · exact h
  · dsimp only
    split
    · exact h
    · intro other hother
      rcases Array.mem_push.mp hother with hother | rfl
      · exact h other hother
      · exact hp

theorem InRange.insertAll (h : s.InRange) (r : SelectionRule) (hcost : Cost.InRange cost) (plans : List Plan) :
    (s.insertAll r cost plans).InRange :=
  List.foldlRecOn (motive := Selection.InRange) _ _ h fun _ hs _ _ => hs.insert r hcost

/-- What an offered plan brings along costs the same. -/
theorem InRange.offer (h : s.InRange) (r : SelectionRule) (hp : Cost.InRange p.cost) : (s.offer r p).1.InRange := by
  have hinserted := h.insert r hp
  unfold Selection.offer
  split
  · rename_i s' heq
    rw [heq] at hinserted
    exact hinserted
  · rename_i s' heq
    rw [heq] at hinserted
    have hreordered := InRange.insertAll hinserted r hp
    split
    all_goals
      dsimp only
      split
      · exact hreordered _
      · exact List.foldlRecOn (motive := Selection.InRange) _ _ (hreordered _) fun _ hs _ _ => hs.insertAll r hp _

end Selection

namespace Enumeration

variable {c : EnumerationSetting} {e : Enumeration}

/-- All costs that an enumeration holds are in range. -/
structure InRange (e : Enumeration) : Prop where
  best : ∀ p ∈ e.best, Cost.InRange p.cost
  optimal : ∀ cost ∈ e.optimal, Cost.InRange cost
  selection : ∀ rule paths selection frontier, e.phase = .collecting rule paths selection frontier →
    selection.InRange

end Enumeration

/-- What an enumeration comes to has its costs in range. -/
def Progress.InRange : Progress → Prop
  | .going e => e.InRange
  | .finished r => r.InRange
  | .failed _ => True

namespace Enumeration

variable {c : EnumerationSetting} {e : Enumeration}

theorem InRange.result (h : e.InRange) (c : EnumerationSetting) (reason : Termination) :
    (e.result c reason).InRange :=
  ⟨List.forall_mem_map.mpr h.best, h.optimal⟩

theorem InRange.startRound (h : e.InRange) (c : EnumerationSetting) : (e.startRound c).InRange := by
  have hbest := h.best
  rw [startRound_eq]
  cases hcost : e.search.pathTree.optimalCost? with
  | none => exact ⟨List.forall_mem_map.mpr hbest, h.optimal⟩
  | some cost =>
    refine ⟨hbest, fun optimal hoptimal => ?_, fun rule paths selection frontier hphase => ?_⟩
    · obtain rfl := Option.some.inj hoptimal
      cases hknown : e.optimal with
      | none => exact Graph.optimalCost?_inRange _ _ _ hcost
      | some known => exact h.optimal known hknown
    · cases hphase
      exact nofun

theorem InRange.withSearch (h : e.InRange) (search : Search) : InRange { e with search } :=
  ⟨h.best, h.optimal, h.selection⟩

theorem InRange.solve (h : e.InRange) (c : EnumerationSetting) : (e.solve c).InRange := by
  unfold Enumeration.solve
  split
  · exact h.result c _
  · split
    · exact h.withSearch _
    · exact (h.withSearch _).startRound c
    · exact (h.withSearch _).result c _
    · exact (h.withSearch _).result c _
    · exact trivial

theorem InRange.endRound (h : e.InRange) {selection : Selection} (hs : selection.InRange) :
    (e.endRound selection).InRange :=
  ⟨fun p hp => hs p (Array.mem_toList_iff.mp hp), h.optimal, h.selection⟩

theorem InRange.startBatch (h : e.InRange) (c : EnumerationSetting) (rule : StopRule) (threshold : Option Int) :
    (e.startBatch c rule threshold).InRange :=
  ⟨h.best, h.optimal, nofun⟩

theorem InRange.collect (h : e.InRange) {selection : Selection} (hs : selection.InRange) (c : EnumerationSetting)
    (rule : StopRule) (paths : PathEnumeration) (frontier : Option Int) :
    (e.collect c rule paths selection frontier).InRange := by
  have hended := h.endRound hs
  unfold Enumeration.collect
  split
  · dsimp only
    split
    · exact InRange.result (e := { e.endRound selection with best := e.best })
        ⟨h.best, hended.optimal, hended.selection⟩ c _
    · exact hended.result c _
  · exact hended.startBatch c rule _
  · split
    · exact hended.startBatch c rule none
    · refine ⟨h.best, h.optimal, fun rule' paths' selection' frontier' hphase => ?_⟩
      cases hphase
      exact hs.offer c.selection (Search.decode_inRange _ _ _)

theorem InRange.continueBatch (h : e.InRange) (c : EnumerationSetting) (rule : StopRule) (threshold : Option Int)
    (bounds : BatchBounds) (steps : Nat) : (e.continueBatch c rule threshold bounds steps).InRange := by
  unfold Enumeration.continueBatch
  dsimp only
  split
  · exact (h.withSearch _).startRound c
  · exact ⟨h.best, h.optimal, nofun⟩

theorem InRange.searchOn (h : e.InRange) (c : EnumerationSetting) (rule : StopRule) (threshold : Option Int)
    (bounds : BatchBounds) (steps : Nat) : (e.searchOn c rule threshold bounds steps).InRange := by
  unfold Enumeration.searchOn
  split
  · exact h.result c _
  · split
    · exact (h.withSearch _).startRound c
    · exact (h.withSearch _).result c _
    · exact trivial
    · dsimp only
      split
      · exact (h.withSearch _).startRound c
      · exact (h.withSearch _).continueBatch c rule threshold bounds _
    · exact (h.withSearch _).continueBatch c rule threshold bounds _

theorem InRange.step (h : e.InRange) (c : EnumerationSetting) : (e.step c).InRange := by
  unfold Enumeration.step
  cases hphase : e.phase with
  | solving => exact h.solve c
  | collecting rule paths selection frontier => exact h.collect (h.selection _ _ _ _ hphase) c rule paths frontier
  | searching rule threshold bounds steps => exact h.searchOn c rule threshold bounds steps

theorem InRange.run (h : e.InRange) {steps : Nat} {r : Result} (hrun : e.run c steps = some (.ok r)) : r.InRange := by
  induction steps generalizing e with
  | zero => cases hrun
  | succ steps ih =>
    have hstep := h.step c
    rw [run_succ] at hrun
    cases hprogress : e.step c with
    | going e' =>
      rw [hprogress] at hrun hstep
      exact ih hstep hrun
    | finished r' =>
      rw [hprogress] at hrun hstep
      obtain rfl := Except.ok.inj (Option.some.inj hrun)
      exact hstep
    | failed fault =>
      rw [hprogress] at hrun
      cases hrun

end Enumeration

/-- Every cost in a result is in range. -/
theorem Task.enumerate?_inRange {t : Task} {h : Heuristic} {request : Request} {policy : Policy} {steps : Nat}
    {r : Result} (hrun : t.enumerate? h request policy steps = some (.ok r)) : r.InRange := by
  cases hset : t.enumerationSetting h request policy with
  | error fault =>
    unfold Task.enumerate? at hrun
    rw [hset] at hrun
    cases hrun
  | ok c =>
    obtain ⟨e, hstart, hrun⟩ := (Task.enumerate?_eq_some_ok_iff hset).mp hrun
    obtain ⟨s, -, rfl⟩ := Enumeration.start_eq_ok_iff.mp hstart
    have hstarted : ({ search := s, phase := .solving } : Enumeration).InRange := ⟨nofun, nofun, nofun⟩
    exact hstarted.run hrun

end RankedPlans
