import Mathlib.Data.List.Nodup
import Mathlib.Data.List.Sections
import RankedPlans.Proofs.Grouping
import RankedPlans.Proofs.Task.Execution

/-! The facts of a task, the states that give every variable one of its values, and what an operator makes
of a state, fact by fact. -/

namespace RankedPlans

theorem Fact.holds_iff {f : Fact} {s : State} : f.holds s = true ↔ s[f.var]? = some f.value := by
  unfold Fact.holds
  cases s[f.var]? <;> simp

theorem Fact.eq_of_holds {f f' : Fact} {s : State} (h : f.holds s = true) (h' : f'.holds s = true)
    (hvar : f.var = f'.var) : f = f' := by
  rw [Fact.holds_iff, hvar] at h
  have hvalue := Option.some.inj (h.symm.trans (Fact.holds_iff.mp h'))
  cases f
  cases f'
  exact congr (congrArg Fact.mk hvar) hvalue

/-- States are compared by the first value in which they differ. -/
theorem State.compare_eq_lt_iff {s s' : State} : compare s s' = .lt ↔ s < s' := by
  rw [Array.compare_eq_compare_toList]
  show _ ↔ s.toList < s'.toList
  generalize s.toList = l, s'.toList = l'
  induction l generalizing l' with
  | nil => cases l' <;> simp
  | cons a l ih =>
    cases l' with
    | nil => simp
    | cons b l' =>
      rw [List.compare_cons_cons, Ordering.then_eq_lt, Nat.compare_eq_lt, Nat.compare_eq_eq, List.cons_lt_cons_iff]
      exact or_congr_right (and_congr_right fun _ => ih l')

theorem Operator.applicable_iff {o : Operator} {s : State} :
    o.applicable s = true ↔ ∀ f ∈ o.preconditions, f.holds s = true :=
  List.all_eq_true

@[simp] theorem Operator.size_apply (o : Operator) (s : State) : (o.apply s).size = s.size :=
  size_foldl_setIfInBounds Fact.var Fact.value o.effects s

/-- An operator that sets no variable twice makes its effects true and leaves all other variables alone. -/
theorem Operator.holds_apply_iff {o : Operator} {s : State} {f : Fact}
    (hnd : (o.effects.map Fact.var).Nodup) (hlt : f.var < s.size) :
    f.holds (o.apply s) = true ↔ f ∈ o.effects ∨ f.var ∉ o.effects.map Fact.var ∧ f.holds s = true := by
  rw [Fact.holds_iff, Fact.holds_iff, Operator.apply]
  by_cases hvar : f.var ∈ o.effects.map Fact.var
  · obtain ⟨e, he, hev⟩ := List.mem_map.mp hvar
    rw [← hev, getElem?_foldl_setIfInBounds_of_mem Fact.var Fact.value he hnd (hev ▸ hlt)]
    simp only [Option.some.injEq, hev, hvar, not_true_eq_false, false_and, or_false]
    constructor
    · intro hvalue
      obtain ⟨var, value⟩ := f
      obtain rfl : e = ⟨var, value⟩ := by
        cases e
        simp_all
      exact he
    · intro hf
      rw [List.inj_on_of_nodup_map hnd he hf hev]
  · rw [getElem?_foldl_setIfInBounds_of_not_mem Fact.var Fact.value hvar]
    have hf : f ∉ o.effects := fun hf => hvar (List.mem_map_of_mem hf)
    simp [hf, hvar]

namespace Task

variable {t : Task} {s s' : State} {f : Fact} {op : Nat}

/-- A variable with one of its values. -/
def IsFact (t : Task) (f : Fact) : Prop :=
  ∃ v, t.vars[f.var]? = some v ∧ f.value < v.values.length

/-- Every variable has one of its values. -/
structure IsState (t : Task) (s : State) : Prop where
  size_eq : s.size = t.vars.size
  isFact : ∀ {f : Fact}, f.holds s = true → t.IsFact f

theorem IsFact.lt (h : t.IsFact f) : f.var < t.vars.size := by
  obtain ⟨v, hv, -⟩ := h
  exact (Array.getElem?_eq_some_iff.mp hv).1

theorem IsState.isFact_of_mem_zipIdx (h : t.IsState s) {p : Nat × Nat} (hp : p ∈ s.toList.zipIdx) :
    t.IsFact ⟨p.2, p.1⟩ :=
  h.isFact <| Fact.holds_iff.mpr <| by simpa using List.mk_mem_zipIdx_iff_getElem?.mp hp

theorem IsState.exists_holds (h : t.IsState s) {var : Nat} (hvar : var < t.vars.size) :
    ∃ f : Fact, f.var = var ∧ f.holds s = true := by
  have hlt : var < s.size := h.size_eq ▸ hvar
  exact ⟨⟨var, s[var]⟩, rfl, Fact.holds_iff.mpr (Array.getElem?_eq_getElem hlt)⟩

/-- States are equal if every fact that holds in the one holds in the other. -/
theorem IsState.ext (h : t.IsState s) (h' : t.IsState s')
    (hle : ∀ f : Fact, f.holds s = true → f.holds s' = true) : s = s' := by
  refine Array.ext (h.size_eq.trans h'.size_eq.symm) fun var hs hs' => ?_
  obtain ⟨f, rfl, hf⟩ := h.exists_holds (h.size_eq ▸ hs)
  have hf' := Fact.holds_iff.mp (hle f hf)
  rw [Fact.holds_iff, Array.getElem?_eq_getElem hs] at hf
  rw [Array.getElem?_eq_getElem hs'] at hf'
  exact (Option.some.inj hf).trans (Option.some.inj hf').symm

theorem goal_facts (t : Task) :
    (∀ f ∈ t.goal, t.IsFact f) ∧ (t.goal.map Fact.var).Nodup :=
  ⟨t.valid.goal.isOf, t.valid.goal.nodup⟩

theorem normalize_operator (t : Task) (op : Nat) : (t.operator op).normalize = t.operator op := by
  by_cases h : op < t.operators.size
  · have hops : t.operators.map Operator.normalize = t.operators := congrArg Draft.operators t.normalized
    have hop := congrArg (fun ops : Array Operator => ops[op]?) hops
    simp only [Array.getElem?_map, Array.getElem?_eq_getElem h, Option.map_some] at hop
    rw [operator_eq h]
    exact Option.some.inj hop
  · rw [operator, Array.getD_eq_getD_getElem?, Array.getElem?_eq_none (by omega)]
    rfl

/-- The facts of an operator are facts of the task, and neither list has two facts of one variable. -/
theorem operator_lists (t : Task) (op : Nat) :
    ((∀ f ∈ (t.operator op).preconditions, t.IsFact f) ∧ ((t.operator op).preconditions.map Fact.var).Nodup) ∧
      (∀ f ∈ (t.operator op).effects, t.IsFact f) ∧ ((t.operator op).effects.map Fact.var).Nodup := by
  by_cases h : op < t.operators.size
  · rw [operator_eq h]
    have hpre := t.valid.preconditions _ (Array.getElem_mem h)
    have heff := t.valid.effects _ (Array.getElem_mem h)
    exact ⟨⟨hpre.isOf, hpre.nodup⟩, heff.isOf, heff.nodup⟩
  · rw [operator, Array.getD_eq_getD_getElem?, Array.getElem?_eq_none (by omega)]
    exact ⟨⟨List.forall_mem_nil _, List.nodup_nil⟩, List.forall_mem_nil _, List.nodup_nil⟩

theorem operator_facts (t : Task) (op : Nat) :
    (∀ f ∈ (t.operator op).preconditions, t.IsFact f) ∧ (∀ f ∈ (t.operator op).effects, t.IsFact f) ∧
      ((t.operator op).effects.map Fact.var).Nodup :=
  ⟨(t.operator_lists op).1.1, (t.operator_lists op).2⟩

theorem isState_initial (t : Task) : t.IsState t.initial :=
  ⟨t.valid.arity, fun {f} hf => t.valid.initial f.var f.value (Fact.holds_iff.mp hf)⟩

theorem holds_apply_iff (h : t.IsState s) (hf : t.IsFact f) : f.holds (t.apply s op) = true ↔
    f ∈ (t.operator op).effects ∨
      f.var ∉ (t.operator op).effects.map Fact.var ∧ f.holds s = true :=
  Operator.holds_apply_iff (t.operator_facts op).2.2 (h.size_eq ▸ hf.lt)

theorem IsState.apply (h : t.IsState s) (op : Nat) : t.IsState (t.apply s op) := by
  refine ⟨((t.operator op).size_apply s).trans h.size_eq, fun {f} hf => ?_⟩
  have hlt : f.var < (t.apply s op).size := (Array.getElem?_eq_some_iff.mp (Fact.holds_iff.mp hf)).1
  rw [Task.apply, Operator.size_apply] at hlt
  rcases (Operator.holds_apply_iff (t.operator_facts op).2.2 hlt).mp hf with heff | ⟨-, hold⟩
  · exact (t.operator_facts op).2.1 f heff
  · exact h.isFact hold

theorem IsState.run? {plan : Plan} {cost : Int} (h : t.IsState s)
    (hrun : t.run? s plan = some (s', cost)) : t.IsState s' := by
  induction plan generalizing s cost with
  | nil =>
    obtain ⟨rfl, -⟩ := Prod.mk.inj (Option.some.inj hrun)
    exact h
  | cons op plan ih =>
    obtain ⟨-, left, hleft, -⟩ := Task.run?_cons_eq_some_iff.mp hrun
    exact ih (h.apply op) hleft

/-- The values of all variables in turn, for every state. -/
def stateLists (t : Task) : List (List Nat) :=
  (t.vars.toList.map fun v => List.range v.values.length).sections

theorem IsState.mem_stateLists (h : t.IsState s) : s.toList ∈ t.stateLists := by
  rw [stateLists, List.mem_sections, List.forall₂_iff_get]
  refine ⟨by simp [h.size_eq], fun i hi hi' => ?_⟩
  have hlt : i < s.size := by simpa using hi
  obtain ⟨v, hv, hvalue⟩ := h.isFact (f := ⟨i, s[i]⟩) (Fact.holds_iff.mpr (Array.getElem?_eq_getElem hlt))
  obtain ⟨_, rfl⟩ := Array.getElem?_eq_some_iff.mp hv
  simpa using hvalue

theorem isGoal_iff : t.isGoal s = true ↔ ∀ f ∈ t.goal, f.holds s = true :=
  List.all_eq_true

end Task

end RankedPlans
