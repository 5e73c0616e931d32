import RankedPlans.Enumeration.Basic
import RankedPlans.Proofs.Search.Representatives

/-! Runs of an enumeration. An enumeration leads to what comes of one of its steps; it comes to at most one
end, however many steps it is given. -/

namespace RankedPlans

variable {t : Task} {h : Heuristic} {r : Request} {p : Policy} {c : EnumerationSetting}

section Setting

theorem enumerationSetting_eq (hset : t.enumerationSetting h r p = .ok c) :
    ∃ preserved, c = .ofRequest t h r preserved p := by
  unfold Task.enumerationSetting at hset
  split at hset
  · cases hset
  · split at hset
    · cases hset
    · exact ⟨_, (Except.ok.inj hset).symm⟩

theorem check_of_enumerationSetting (hset : t.enumerationSetting h r p = .ok c) :
    ∃ preserved, r.check = .ok preserved := by
  unfold Task.enumerationSetting at hset
  cases hcheck : r.check with
  | error fault =>
    rw [hcheck] at hset
    cases hset
  | ok preserved => exact ⟨preserved, rfl⟩

/-- The groups in use consist of symmetries, and the one for plans keeps the initial state, even if it is
that of the search. -/
theorem groups_sound (t : Task) (p : SymmetryPolicy) :
    (∀ g, (EnumerationSetting.groups t p).1 = some g → g.Sound t) ∧
    ∀ g, (EnumerationSetting.groups t p).2 = some g → g.Sound t ∧ g.fixesInitial = true := by
  have hsearch : ∀ g, (EnumerationSetting.groups t p).1 = some g → g.Sound t := by
    intro g hg
    dsimp only [EnumerationSetting.groups] at hg
    split at hg
    · obtain rfl := Option.some.inj hg
      exact SymmetryGroup.ofTask_sound t p p.fixInitial
    · cases hg
  refine ⟨hsearch, fun g hg => ?_⟩
  dsimp only [EnumerationSetting.groups] at hg
  split at hg
  · cases hg
  · split at hg
    · rename_i shared hshared
      obtain rfl := Option.some.inj hg
      obtain ⟨hmem, hfix⟩ := Option.filter_eq_some_iff.mp hshared
      exact ⟨hsearch _ hmem, hfix⟩
    · obtain rfl := Option.some.inj hg
      exact ⟨SymmetryGroup.ofTask_sound t p true, rfl⟩

theorem grouped_of_enumerationSetting (hset : t.enumerationSetting h r p = .ok c) : c.search.Grouped := by
  obtain ⟨preserved, rfl⟩ := enumerationSetting_eq hset
  exact fun g hg => (groups_sound t p.symmetry).1 g hg

end Setting

namespace Enumeration

variable {e e' : Enumeration} {steps : Nat} {outcome : Except NegativeEstimate Result} {res : Result}

/-- The run from an enumeration comes to this. -/
inductive Leads (c : EnumerationSetting) : Enumeration → Progress → Prop
  | step (e : Enumeration) : Leads c e (e.step c)
  | next {e e' : Enumeration} {p : Progress} : e.step c = .going e' → Leads c e' p → Leads c e p

theorem run_succ (c : EnumerationSetting) (e : Enumeration) (steps : Nat) : e.run c (steps + 1) =
    match e.step c with
    | .going e => e.run c steps
    | .finished r => some (.ok r)
    | .failed fault => some (.error fault) :=
  rfl

theorem Leads.of_step {p : Progress} (hstep : e.step c = p) : Leads c e p :=
  hstep ▸ .step e

theorem Leads.exists_run (hleads : Leads c e (.finished res)) :
    ∃ steps, e.run c steps = some (.ok res) := by
  generalize hp : Progress.finished res = p at hleads
  induction hleads with
  | step e => exact ⟨1, by rw [run_succ, ← hp]⟩
  | next hstep _ ih =>
    obtain ⟨steps, hrun⟩ := ih hp
    exact ⟨steps + 1, by rw [run_succ, hstep]; exact hrun⟩

/-- A run passes through all that it leads to. -/
theorem Leads.run_going (hleads : Leads c e (.going e')) (hrun : e.run c steps = some outcome) :
    ∃ steps, e'.run c steps = some outcome := by
  generalize hp : Progress.going e' = p at hleads
  induction hleads generalizing steps with
  | step e =>
    cases steps with
    | zero => cases hrun
    | succ steps =>
      rw [run_succ, ← hp] at hrun
      exact ⟨steps, hrun⟩
  | next hstep _ ih =>
    cases steps with
    | zero => cases hrun
    | succ steps =>
      rw [run_succ, hstep] at hrun
      exact ih hrun hp

theorem Leads.run_eq (hleads : Leads c e (.finished res)) (hrun : e.run c steps = some outcome) :
    outcome = .ok res := by
  generalize hp : Progress.finished res = p at hleads
  induction hleads generalizing steps with
  | step e =>
    cases steps with
    | zero => cases hrun
    | succ steps =>
      rw [run_succ, ← hp] at hrun
      exact (Option.some.inj hrun).symm
  | next hstep _ ih =>
    cases steps with
    | zero => cases hrun
    | succ steps =>
      rw [run_succ, hstep] at hrun
      exact ih hrun hp

theorem startRound_eq (c : EnumerationSetting) (e : Enumeration) : e.startRound c =
    match e.search.pathTree.optimalCost? with
    | none => .finished (({ e with
        search := e.search.leastEstimate?.2, rounds := e.rounds + 1 } : Enumeration).result c
          .unsolvable)
    | some cost => .going { e with
        search := e.search.leastEstimate?.2
        rounds := e.rounds + 1
        optimal := some (e.optimal.getD cost)
        phase := .collecting (.ofRequest c.request (e.optimal.getD cost) c.expired)
          (.start e.search.graph e.search.pathTree) {} e.search.leastEstimate?.1 } :=
  rfl

theorem start_eq_ok_iff :
    Enumeration.start c = .ok e ↔ ∃ s, Search.start c.search = .ok s ∧
      e = { search := s, phase := .solving } := by
  unfold Enumeration.start
  cases Search.start c.search with
  | error fault => exact ⟨nofun, nofun⟩
  | ok s =>
    constructor
    · intro heq
      exact ⟨s, rfl, (Except.ok.inj heq).symm⟩
    · rintro ⟨s', hs, rfl⟩
      rw [Except.ok.inj hs]
      rfl

end Enumeration

/-- An enumeration gives a result if it can be started and its run ends with it. -/
theorem Task.enumerate?_eq_some_ok_iff (hset : t.enumerationSetting h r p = .ok c) {steps : Nat}
    {res : Result} : t.enumerate? h r p steps = some (.ok res) ↔
      ∃ e, Enumeration.start c = .ok e ∧ e.run c steps = some (.ok res) := by
  unfold Task.enumerate?
  simp only [hset]
  cases hstart : Enumeration.start c with
  | error fault => simp
  | ok e =>
    constructor
    · intro hres
      obtain ⟨outcome, hrun, heq⟩ := Option.map_eq_some_iff.mp hres
      cases outcome with
      | error fault => cases heq
      | ok res' => exact ⟨e, rfl, Except.ok.inj heq ▸ hrun⟩
    · rintro ⟨e', he, hrun⟩
      obtain rfl := Except.ok.inj he
      exact Option.map_eq_some_iff.mpr ⟨_, hrun, rfl⟩

theorem exists_ok_of_map_eq {ε α : Type} {outcome : Option (Except ε Result)}
    {f : Result → α} {a : α} (hvalue : (outcome.bind Except.toOption).map f = some a) :
    ∃ res, outcome = some (.ok res) ∧ f res = a := by
  obtain ⟨res, hres, heq⟩ := Option.map_eq_some_iff.mp hvalue
  obtain ⟨e, rfl, hok⟩ := Option.bind_eq_some_iff.mp hres
  cases e with
  | error fault => cases hok
  | ok res' => exact ⟨res, by rw [show res' = res from Option.some.inj hok], heq⟩

end RankedPlans
