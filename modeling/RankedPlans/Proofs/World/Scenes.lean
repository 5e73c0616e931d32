import Mathlib.Algebra.Ring.Int.Defs
import Mathlib.Order.Bounds.Basic
import RankedPlans.Proofs.Task.Deeds
import RankedPlans.World.Fault

/-! Worlds as scenes. Atoms say something of the scenes of a world, states of its task show scenes, and actions turn
one scene into another. What is known of the scenes so carries over to all runs of the task. In particular, a number for
each scene that falls by no more than the cost of an action, and along some action by just that, is the cost of a
cheapest way from the scene to the goal. -/

namespace RankedPlans

theorem Strips.world_eq_ok_iff {b : Strips} {t : Task} : b.world = .ok t ↔ b.build = .ok t := by
  unfold Strips.world
  cases b.build with
  | error fault => exact iff_of_false (by simp [Except.mapError]) (by simp)
  | ok t => simp [Except.mapError]

namespace Task

variable {t : Task} {s : State} {op : Nat} {plan : Plan} {cost : Int}

/-- The plans that lead from a state to the goal at a cost. -/
def ways (t : Task) (s : State) (cost : Int) : Set Plan :=
  {plan | ∃ final, t.run? s plan = some (final, cost) ∧ t.isGoal final = true}

theorem mem_ways_initial_iff : plan ∈ t.ways t.initial cost ↔ t.planCost? plan = some cost :=
  planCost?_eq_some_iff.symm

theorem nil_mem_ways_iff : [] ∈ t.ways s cost ↔ t.isGoal s = true ∧ cost = 0 := by
  constructor
  · rintro ⟨final, hrun, hgoal⟩
    obtain ⟨rfl, rfl⟩ := Prod.mk.inj (Option.some.inj hrun)
    exact ⟨hgoal, rfl⟩
  · rintro ⟨hgoal, rfl⟩
    exact ⟨s, rfl, hgoal⟩

theorem cons_mem_ways_iff : op :: plan ∈ t.ways s cost ↔
    op ∈ t.applicable s ∧ plan ∈ t.ways (t.apply s op) (cost - (t.operator op).cost) := by
  constructor
  · rintro ⟨final, hrun, hgoal⟩
    obtain ⟨hop, left, hleft, rfl⟩ := run?_cons_eq_some_iff.mp hrun
    rw [add_sub_cancel_left]
    exact ⟨hop, final, hleft, hgoal⟩
  · rintro ⟨hop, final, hrun, hgoal⟩
    exact ⟨final, run?_cons_eq_some_iff.mpr ⟨hop, _, hrun, (add_sub_cancel ..).symm⟩, hgoal⟩

end Task

/-- How atoms speak of scenes: the names of the atoms, which atoms there are, what they say of a scene, and which scenes
can be met with. -/
structure Depiction (α Scene : Type) where
  name : α → String
  known : Set α
  Says : Scene → α → Prop
  Possible : Scene → Prop

namespace Depiction

open Strips (Deed Enacts)

variable {α Scene : Type}

/-- A state of the task in which just those atoms hold that say something true of a scene. -/
structure Shows (v : Depiction α Scene) (t : Task) (c : Scene) (s : State) : Prop where
  isState : t.IsState s
  possible : v.Possible c
  holds_iff : ∀ a ∈ v.known, t.Holds s (v.name a) ↔ v.Says c a

/-- An action turns a scene into another one: what it adds and what it leaves is what is true of the other scene. -/
structure Turns (v : Depiction α Scene) (d : Deed α) (c c' : Scene) : Prop where
  possible : v.Possible c'
  says_iff : ∀ a ∈ v.known, (a ∈ d.add ∨ a ∉ d.del ∧ v.Says c a) ↔ v.Says c' a

/-- The task of some actions over the atoms that there are. -/
structure Enacted (v : Depiction α Scene) (t : Task) (deeds : List (Deed α)) (init goal : List α) : Prop where
  enacts : Enacts t v.name v.known deeds init goal
  known : ∀ d ∈ deeds, ∀ a ∈ d.atoms, a ∈ v.known

variable {v : Depiction α Scene} {t : Task} {deeds : List (Deed α)} {init goal : List α} {c c' : Scene} {s s' : State}
  {d : Deed α} {op : Nat} {plan : Plan} {cost : Int}

theorem enacted_of_build {entries : List Strips.Entry}
    (hdeeds : entries.filterMap Strips.Entry.deed? = deeds.map (Deed.map v.name))
    (hinj : Set.InjOn v.name v.known) (hknown : ∀ d ∈ deeds, ∀ a ∈ d.atoms, a ∈ v.known)
    (hinit : ∀ a ∈ init, a ∈ v.known)
    (ht : (Strips.ofEntries entries (init.map v.name) (goal.map v.name)).build = .ok t) :
    v.Enacted t deeds init goal :=
  ⟨Strips.enacts_of_build hdeeds hinj hknown hinit ht, hknown⟩

section Steps

variable (h : v.Enacted t deeds init goal)
include h

theorem Enacted.says_pre_iff (hs : v.Shows t c s) (hd : d ∈ deeds) :
    (∀ a ∈ d.pre, t.Holds s (v.name a)) ↔ ∀ a ∈ d.pre, v.Says c a :=
  forall₂_congr fun a ha => hs.holds_iff a (h.known d hd a (List.mem_append_left _ (List.mem_append_left _ ha)))

theorem Enacted.shows_initial (hc : v.Possible c) (hinit : ∀ a ∈ v.known, a ∈ init ↔ v.Says c a) :
    v.Shows t c t.initial :=
  ⟨t.isState_initial, hc, fun a ha => (h.enacts.initial ha).trans (hinit a ha)⟩

theorem Enacted.isGoal_iff (hs : v.Shows t c s) (hgoal : ∀ a ∈ goal, a ∈ v.known) :
    t.isGoal s = true ↔ ∀ a ∈ goal, v.Says c a :=
  (h.enacts.isGoal hs.isState).trans (forall₂_congr fun a ha => hs.holds_iff a (hgoal a ha))

theorem Shows.turn (hs : v.Shows t c s) (hd : deeds[op]? = some d) (hturns : v.Turns d c c') :
    v.Shows t c' (t.apply s op) := by
  refine ⟨hs.isState.apply op, hturns.possible, fun a ha => ?_⟩
  rw [h.enacts.apply hd hs.isState ha, hs.holds_iff a ha]
  exact hturns.says_iff a ha

/-- Operators can be applied where their actions can be done. -/
theorem Shows.mem_applicable_iff (hs : v.Shows t c s) : op ∈ t.applicable s ↔
    ∃ d, deeds[op]? = some d ∧ (t.operator op).cost = d.cost ∧ ∀ a ∈ d.pre, v.Says c a := by
  rw [h.enacts.mem_applicable_iff hs.isState]
  refine exists_congr fun d => and_congr_right fun hd => ?_
  rw [h.says_pre_iff hs (List.mem_of_getElem? hd), (h.enacts.operator hd).2]
  exact ⟨fun hpre => ⟨rfl, hpre⟩, And.right⟩

end Steps

/-- What every action keeps of the scenes is kept by runs. -/
theorem Shows.exists_of_run (h : v.Enacted t deeds init goal)
    (hturns : ∀ {c d}, v.Possible c → d ∈ deeds → (∀ a ∈ d.pre, v.Says c a) → ∃ c', v.Turns d c c')
    (hs : v.Shows t c s) (hrun : t.run? s plan = some (s', cost)) : ∃ c', v.Shows t c' s' := by
  induction plan generalizing c s cost with
  | nil =>
    obtain ⟨rfl, -⟩ := Prod.mk.inj (Option.some.inj hrun)
    exact ⟨c, hs⟩
  | cons op plan ih =>
    obtain ⟨hop, left, hleft, -⟩ := Task.run?_cons_eq_some_iff.mp hrun
    obtain ⟨d, hd, -, hpre⟩ := (hs.mem_applicable_iff h).mp hop
    obtain ⟨c', hc'⟩ := hturns hs.possible (List.mem_of_getElem? hd) hpre
    exact ih (hs.turn h hd hc') hleft

/-- Some action takes just its cost off what is left. -/
def Advances (v : Depiction α Scene) (deeds : List (Deed α)) (left : Scene → Nat) (c : Scene) : Prop :=
  ∃ d ∈ deeds, (∀ a ∈ d.pre, v.Says c a) ∧ ∃ c', v.Turns d c c' ∧ (left c : Int) = d.cost + left c'

/-- What is left to pay in each scene: no action takes off more than its cost, some action takes off just that, and
nothing is left where the goal is reached and only there. -/
structure Priced (v : Depiction α Scene) (deeds : List (Deed α)) (goal : List α) (left : Scene → Nat) : Prop where
  cost_pos : ∀ d ∈ deeds, 0 < d.cost
  step : ∀ {c d}, v.Possible c → d ∈ deeds → (∀ a ∈ d.pre, v.Says c a) →
    ∃ c', v.Turns d c c' ∧ (left c : Int) ≤ d.cost + left c'
  progress : ∀ {c}, v.Possible c → 0 < left c → v.Advances deeds left c
  goal_known : ∀ a ∈ goal, a ∈ v.known
  goal_iff : ∀ {c}, v.Possible c → ((∀ a ∈ goal, v.Says c a) ↔ left c = 0)

variable {left : Scene → Nat}

section Priced

variable (hp : v.Priced deeds goal left) (h : v.Enacted t deeds init goal) (hs : v.Shows t c s)
include hp h hs

theorem Priced.isGoal_iff : t.isGoal s = true ↔ left c = 0 :=
  (h.isGoal_iff hs hp.goal_known).trans (hp.goal_iff hs.possible)

/-- No way to the goal costs less than what is left. -/
theorem Priced.left_le (hplan : plan ∈ t.ways s cost) : (left c : Int) ≤ cost := by
  induction plan generalizing c s cost with
  | nil =>
    obtain ⟨hgoal, rfl⟩ := Task.nil_mem_ways_iff.mp hplan
    rw [(hp.isGoal_iff h hs).mp hgoal]
    exact Int.le_refl 0
  | cons op plan ih =>
    obtain ⟨hop, hplan⟩ := Task.cons_mem_ways_iff.mp hplan
    obtain ⟨d, hd, hcost, hpre⟩ := (hs.mem_applicable_iff h).mp hop
    obtain ⟨c', hturns, hle⟩ := hp.step hs.possible (List.mem_of_getElem? hd) hpre
    have := ih (hs.turn h hd hturns) hplan
    omega

theorem Priced.nil_mem_ways_iff : [] ∈ t.ways s (left c : Int) ↔ left c = 0 := by
  rw [Task.nil_mem_ways_iff, hp.isGoal_iff h hs, Int.natCast_eq_zero, and_self]

/-- A cheapest way begins with an action that takes just its cost off what is left. -/
theorem Priced.cons_mem_ways_iff : op :: plan ∈ t.ways s (left c : Int) ↔
    ∃ d, deeds[op]? = some d ∧ (∀ a ∈ d.pre, v.Says c a) ∧ ∃ c', v.Turns d c c' ∧
      (left c : Int) = d.cost + left c' ∧ plan ∈ t.ways (t.apply s op) (left c' : Int) := by
  rw [Task.cons_mem_ways_iff, hs.mem_applicable_iff h]
  constructor
  · rintro ⟨⟨d, hd, hcost, hpre⟩, hplan⟩
    obtain ⟨c', hturns, hle⟩ := hp.step hs.possible (List.mem_of_getElem? hd) hpre
    have hge := hp.left_le h (hs.turn h hd hturns) hplan
    have hleft : (left c : Int) - (t.operator op).cost = left c' := by omega
    exact ⟨d, hd, hpre, c', hturns, by omega, hleft ▸ hplan⟩
  · rintro ⟨d, hd, hpre, c', hturns, hleft, hplan⟩
    have hcost := (h.enacts.operator hd).2
    refine ⟨⟨d, hd, hcost, hpre⟩, ?_⟩
    rwa [hleft, hcost, add_sub_cancel_left]

/-- Where nothing is left there is nothing to do. -/
theorem Priced.ways_eq_singleton (hzero : left c = 0) : t.ways s (left c : Int) = {[]} := by
  ext plan
  cases plan with
  | nil => exact iff_of_true ((hp.nil_mem_ways_iff h hs).mpr hzero) rfl
  | cons op plan =>
    refine iff_of_false (fun hplan => ?_) (List.cons_ne_nil op plan)
    obtain ⟨d, hd, -, c', -, hcost, -⟩ := (hp.cons_mem_ways_iff h hs).mp hplan
    have := hp.cost_pos d (List.mem_of_getElem? hd)
    omega

/-- Some way to the goal costs what is left. -/
theorem Priced.nonempty_ways : (t.ways s (left c : Int)).Nonempty := by
  -- the induction is on what is left, since an action that takes its cost off makes it less
  induction hn : left c using Nat.strong_induction_on generalizing c s with
  | _ n ih =>
    subst hn
    rcases Nat.eq_zero_or_pos (left c) with hzero | hpos
    · exact ⟨[], (hp.nil_mem_ways_iff h hs).mpr hzero⟩
    · obtain ⟨d, hd, hpre, c', hturns, hcost⟩ := hp.progress hs.possible hpos
      have hlt : left c' < left c := by
        have := hp.cost_pos d hd
        omega
      obtain ⟨op, hop⟩ := List.getElem?_of_mem hd
      obtain ⟨plan, hplan⟩ := ih _ hlt (hs.turn h hop hturns) rfl
      exact ⟨op :: plan, (hp.cons_mem_ways_iff h hs).mpr ⟨d, hop, hpre, c', hturns, hcost, hplan⟩⟩

end Priced

/-- What is left at the start is the cost of a cheapest plan. -/
theorem Priced.isLeast (hp : v.Priced deeds goal left) (h : v.Enacted t deeds init goal) (hs : v.Shows t c t.initial) :
    IsLeast {cost | ∃ plan, t.planCost? plan = some cost} (left c : Int) := by
  constructor
  · obtain ⟨plan, hplan⟩ := hp.nonempty_ways h hs
    exact ⟨plan, Task.mem_ways_initial_iff.mp hplan⟩
  · rintro cost ⟨plan, hplan⟩
    exact hp.left_le h hs (Task.mem_ways_initial_iff.mpr hplan)

end Depiction

end RankedPlans
