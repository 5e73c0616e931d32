import Mathlib.Algebra.GroupWithZero.Nat
import Mathlib.Data.List.Nodup
import RankedPlans.Task.Validation

/-! What validation asks of a draft. `Draft.Valid` says it without the order in which the faults are looked for: a
draft in normal form has no fault if and only if it is valid and within the limits on the counts. The task of a draft,
and its fault as well, is that of every draft with the same facts in other orders. -/

namespace RankedPlans

namespace Fact

variable {f f' : Fact} {facts facts' : List Fact} {vars : Array Variable} {place : Place} {previous : Option Nat}

theorem sort_perm (facts : List Fact) : (sort facts).Perm facts :=
  sortBy_perm le facts

theorem sort_eq_of_perm (h : facts.Perm facts') : sort facts = sort facts' :=
  sortBy_eq_of_perm le_trans le_total le_antisymm h

theorem pairwise_of_sort_eq (h : sort facts = facts) : facts.Pairwise fun f f' => f.le f' = true := by
  rw [← h]
  exact sortBy_pairwise le_trans le_total facts

theorem var_le_of_le (h : f.le f' = true) : f.var ≤ f'.var := by
  simp only [le, Bool.or_eq_true, Bool.and_eq_true, decide_eq_true_eq, beq_iff_eq] at h
  omega

/-- A variable with one of its values. -/
def IsOf (vars : Array Variable) (f : Fact) : Prop :=
  ∃ v, vars[f.var]? = some v ∧ f.value < v.values.length

/-- Variables with one of their values, and no variable twice. -/
structure Assign (vars : Array Variable) (facts : List Fact) : Prop where
  isOf : ∀ f ∈ facts, f.IsOf vars
  nodup : (facts.map var).Nodup

theorem Assign.of_perm (h : Assign vars facts) (hperm : facts.Perm facts') : Assign vars facts' :=
  ⟨fun f hf => h.isOf f (hperm.mem_iff.mpr hf), (hperm.map var).nodup_iff.mp h.nodup⟩

theorem assign_sort_iff : Assign vars (sort facts) ↔ Assign vars facts :=
  ⟨fun h => h.of_perm (sort_perm facts), fun h => h.of_perm (sort_perm facts).symm⟩

theorem assign_cons_iff : Assign vars (f :: facts) ↔ f.IsOf vars ∧ f.var ∉ facts.map var ∧ Assign vars facts := by
  constructor
  · rintro ⟨hisOf, hnodup⟩
    obtain ⟨hf, hfacts⟩ := List.forall_mem_cons.mp hisOf
    obtain ⟨hnew, hnodup⟩ := List.nodup_cons.mp hnodup
    exact ⟨hf, hnew, hfacts, hnodup⟩
  · rintro ⟨hf, hnew, hfacts, hnodup⟩
    exact ⟨List.forall_mem_cons.mpr ⟨hf, hfacts⟩, List.nodup_cons.mpr ⟨hnew, hnodup⟩⟩

theorem fault?_eq_none_iff : f.fault? vars place = none ↔ f.IsOf vars := by
  unfold fault? IsOf
  split
  · rename_i hnone
    simp [hnone]
  · rename_i v hv
    simp [hv]

/-- In ascending order a variable comes again as the next one, or it does not. -/
theorem ne_head_iff (hsorted : (f :: facts).Pairwise fun f f' => f.le f' = true) :
    (∀ f' ∈ facts.head?, f.var ≠ f'.var) ↔ f.var ∉ facts.map var := by
  cases facts with
  | nil => simp
  | cons f' facts =>
    obtain ⟨hf, hsorted⟩ := List.pairwise_cons.mp hsorted
    obtain ⟨hf', -⟩ := List.pairwise_cons.mp hsorted
    have hle := var_le_of_le (hf f' (List.mem_cons_self ..))
    simp only [List.head?_cons, Option.mem_some_iff, forall_eq', List.map_cons, List.mem_cons, List.mem_map, not_or]
    refine ⟨fun hne => ⟨hne, ?_⟩, fun h => h.1⟩
    rintro ⟨f'', hmem, heq⟩
    have := var_le_of_le (hf' f'' hmem)
    omega

/-- Sorted facts have no fault if they assign values to variables and do not begin with the variable before. -/
theorem factFault?_eq_none_iff (hsorted : facts.Pairwise fun f f' => f.le f' = true) :
    factFault? vars place previous facts = none ↔
      Assign vars facts ∧ ∀ f ∈ facts.head?, previous ≠ some f.var := by
  induction facts generalizing previous with
  | nil => exact iff_of_true rfl ⟨⟨nofun, List.nodup_nil⟩, nofun⟩
  | cons f facts ih =>
    have hnext : (∀ f' ∈ facts.head?, some f.var ≠ some f'.var) ↔ f.var ∉ facts.map var := by
      simpa using ne_head_iff hsorted
    rw [factFault?, Option.or_eq_none_iff, fault?_eq_none_iff, assign_cons_iff, ← hnext]
    simp only [List.head?_cons, Option.mem_some_iff, forall_eq']
    by_cases hprevious : previous = some f.var
    · simp [hprevious]
    · rw [if_neg hprevious, ih (List.pairwise_cons.mp hsorted).2]
      tauto

theorem fault?_eq_some {fault : Fault} (h : f.fault? vars place = some fault) :
    fault = .unknownVariable place f.var ∧ vars.size ≤ f.var ∨
      fault = .unknownValue place f.var f.value ∧ ∃ v, vars[f.var]? = some v ∧ v.values.length ≤ f.value := by
  unfold fault? at h
  split at h
  · rename_i hnone
    cases h
    exact .inl ⟨rfl, Array.getElem?_eq_none_iff.mp hnone⟩
  · rename_i v hv
    split at h
    · rename_i hle
      cases h
      exact .inr ⟨rfl, v, hv, hle⟩
    · cases h

/-- The fault of a list is that of one of its facts, or it names a variable that comes twice. -/
theorem factFault?_eq_some {fault : Fault} (h : factFault? vars place previous facts = some fault) :
    (∃ f ∈ facts, f.fault? vars place = some fault) ∨
      ∃ var, fault = .repeatedVariable place var ∧ 2 ≤ (previous.toList ++ facts.map Fact.var).count var := by
  induction facts generalizing previous with
  | nil => cases h
  | cons f facts ih =>
    rw [factFault?, Option.or_eq_some_iff] at h
    obtain hf | ⟨-, h⟩ := h
    · exact .inl ⟨f, List.mem_cons_self .., hf⟩
    split at h
    · rename_i hprevious
      cases h
      exact .inr ⟨f.var, rfl, by simp [hprevious]⟩
    · rcases ih h with ⟨f', hmem, hf'⟩ | ⟨var, hfault, hcount⟩
      · exact .inl ⟨f', List.mem_cons_of_mem _ hmem, hf'⟩
      · have hsub := List.sublist_append_right previous.toList (f.var :: facts.map Fact.var)
        exact .inr ⟨var, hfault, Nat.le_trans hcount (hsub.count_le var)⟩

end Fact

namespace Draft

variable {d d' : Draft}

/-- There are variables, each of them has values and begins with one of them, the goal and the lists of the operators
assign values to variables, and no operator has a negative cost. -/
structure Valid (d : Draft) : Prop where
  vars : 0 < d.vars.size
  values : ∀ v ∈ d.vars, v.values ≠ []
  arity : d.initial.size = d.vars.size
  initial : ∀ (var value : Nat), d.initial[var]? = some value → Fact.IsOf d.vars ⟨var, value⟩
  goal : Fact.Assign d.vars d.goal
  cost : ∀ o ∈ d.operators, 0 ≤ o.cost
  preconditions : ∀ o ∈ d.operators, Fact.Assign d.vars o.preconditions
  effects : ∀ o ∈ d.operators, Fact.Assign d.vars o.effects

/-- The counts are numbers of 32 bits. -/
structure Countable (d : Draft) : Prop where
  vars : d.vars.size ≤ countLimit
  operators : d.operators.size ≤ countLimit

theorem valid_normalize_iff : d.normalize.Valid ↔ d.Valid := by
  have hops : ∀ P : Operator → Prop, (∀ o ∈ d.normalize.operators, P o) ↔ ∀ o ∈ d.operators, P o.normalize := by
    simp [normalize]
  constructor
  · exact fun h => ⟨h.vars, h.values, h.arity, h.initial, Fact.assign_sort_iff.mp h.goal, (hops _).mp h.cost,
      fun o ho => Fact.assign_sort_iff.mp ((hops _).mp h.preconditions o ho),
      fun o ho => Fact.assign_sort_iff.mp ((hops _).mp h.effects o ho)⟩
  · exact fun h => ⟨h.vars, h.values, h.arity, h.initial, Fact.assign_sort_iff.mpr h.goal, (hops _).mpr h.cost,
      (hops _).mpr fun o ho => Fact.assign_sort_iff.mpr (h.preconditions o ho),
      (hops _).mpr fun o ho => Fact.assign_sort_iff.mpr (h.effects o ho)⟩

theorem countable_normalize_iff : d.normalize.Countable ↔ d.Countable := by
  have hsize : d.normalize.operators.size = d.operators.size := Array.size_map
  exact ⟨fun h => ⟨h.vars, hsize ▸ h.operators⟩, fun h => ⟨h.vars, hsize.symm ▸ h.operators⟩⟩

theorem sizeFault?_eq_none_iff : d.sizeFault? = none ↔ 0 < d.vars.size ∧ d.Countable := by
  unfold sizeFault?
  constructor
  · intro h
    split at h
    · cases h
    split at h
    · cases h
    split at h
    · cases h
    exact ⟨by omega, by omega, by omega⟩
  · rintro ⟨hpos, hvars, hops⟩
    rw [if_neg (by omega), if_neg (by omega), if_neg (by omega)]

theorem domainFault?_eq_none_iff : d.domainFault? = none ↔ ∀ v ∈ d.vars, v.values ≠ [] := by
  rw [domainFault?, List.findSome?_eq_none_iff]
  constructor
  · intro h v hv hempty
    obtain ⟨i, hi, rfl⟩ := Array.mem_iff_getElem.mp hv
    have := h (d.vars[i], i) (List.mk_mem_zipIdx_iff_getElem?.mpr (by simp [hi]))
    simp [hempty] at this
  · rintro h ⟨v, i⟩ hv
    have hv : v ∈ d.vars := by
      simpa using List.mem_of_getElem? (List.mk_mem_zipIdx_iff_getElem?.mp hv)
    exact if_neg (h v hv)

theorem initialFault?_eq_none_iff : d.initialFault? = none ↔ d.initial.size = d.vars.size ∧
    ∀ (var value : Nat), d.initial[var]? = some value → Fact.IsOf d.vars ⟨var, value⟩ := by
  unfold initialFault?
  split
  · rename_i hne
    exact iff_of_false nofun fun h => hne h.1
  · rename_i heq
    rw [and_iff_right (Decidable.not_not.mp heq), List.findSome?_eq_none_iff]
    simp only [Fact.fault?_eq_none_iff, initialFacts, List.forall_mem_map, Prod.forall, List.mk_mem_zipIdx_iff_getElem?,
      Array.getElem?_toList]
    exact forall_comm

theorem operatorFault?_eq_none_iff {o : Operator} (ho : o.normalize = o) : d.operatorFault? o = none ↔
    0 ≤ o.cost ∧ Fact.Assign d.vars o.preconditions ∧ Fact.Assign d.vars o.effects := by
  have hpre := Fact.pairwise_of_sort_eq (congrArg Operator.preconditions ho)
  have heff := Fact.pairwise_of_sort_eq (congrArg Operator.effects ho)
  unfold operatorFault?
  split
  · rename_i hcost
    exact iff_of_false nofun fun h => by omega
  · rename_i hcost
    rw [Option.or_eq_none_iff, Fact.factFault?_eq_none_iff hpre, Fact.factFault?_eq_none_iff heff,
      and_iff_right (show 0 ≤ o.cost by omega)]
    simp

/-- A draft in normal form has no fault if it is valid and within the limits on the counts, and otherwise it has. -/
theorem fault?_eq_none_iff (hnormal : d.normalize = d) : d.fault? = none ↔ d.Valid ∧ d.Countable := by
  have hgoal := Fact.pairwise_of_sort_eq (congrArg Draft.goal hnormal)
  have hops : ∀ o ∈ d.operators, d.operatorFault? o = none ↔
      0 ≤ o.cost ∧ Fact.Assign d.vars o.preconditions ∧ Fact.Assign d.vars o.effects := fun o ho => by
    have heq : d.operators.map Operator.normalize = d.operators := congrArg Draft.operators hnormal
    rw [← heq] at ho
    obtain ⟨o', -, rfl⟩ := Array.mem_map.mp ho
    exact operatorFault?_eq_none_iff o'.normalize_normalize
  simp only [fault?, Option.or_eq_none_iff, sizeFault?_eq_none_iff, domainFault?_eq_none_iff, initialFault?_eq_none_iff,
    Fact.factFault?_eq_none_iff hgoal, List.findSome?_eq_none_iff, Array.mem_toList_iff]
  constructor
  · rintro ⟨⟨hvars, hcount⟩, hvalues, ⟨harity, hinitial⟩, ⟨hgoal, -⟩, hfaults⟩
    have hops o ho := (hops o ho).mp (hfaults o ho)
    exact ⟨⟨hvars, hvalues, harity, hinitial, hgoal, fun o ho => (hops o ho).1, fun o ho => (hops o ho).2.1,
      fun o ho => (hops o ho).2.2⟩, hcount⟩
  · rintro ⟨h, hcount⟩
    exact ⟨⟨h.vars, hcount⟩, h.values, ⟨h.arity, h.initial⟩, ⟨h.goal, nofun⟩,
      fun o ho => (hops o ho).mpr ⟨h.cost o ho, h.preconditions o ho, h.effects o ho⟩⟩

/-- The lists of facts that a place in messages may stand for. -/
def Lists (d : Draft) (facts : List Fact) : Place → Prop
  | .initialState => facts = d.initialFacts
  | .goal => facts = d.goal
  | .precondition name => ∃ o ∈ d.operators, o.name = name ∧ facts = o.preconditions
  | .effect name => ∃ o ∈ d.operators, o.name = name ∧ facts = o.effects

/-- What a fault says of a draft. -/
def Has (d : Draft) : Fault → Prop
  | .noVariables => d.vars.size = 0
  | .tooMany .vars count => d.vars.size = count ∧ countLimit < count
  | .tooMany .operators count => d.operators.size = count ∧ countLimit < count
  | .emptyDomain var name => d.vars[var]? = some ⟨name, []⟩
  | .initialArity expected got => d.vars.size = expected ∧ d.initial.size = got ∧ expected ≠ got
  | .unknownVariable place var => d.vars.size ≤ var ∧ ∃ facts, d.Lists facts place ∧ var ∈ facts.map Fact.var
  | .unknownValue place var value => (∃ v, d.vars[var]? = some v ∧ v.values.length ≤ value) ∧
      ∃ facts, d.Lists facts place ∧ ⟨var, value⟩ ∈ facts
  | .repeatedVariable place var => ∃ facts, d.Lists facts place ∧ 2 ≤ (facts.map Fact.var).count var
  | .negativeCost name cost => cost < 0 ∧ ∃ o ∈ d.operators, o.name = name ∧ o.cost = cost

theorem has_of_fact {place : Place} {facts : List Fact} {f : Fact} {fault : Fault} (hlist : d.Lists facts place)
    (hf : f ∈ facts) (h : f.fault? d.vars place = some fault) : d.Has fault := by
  rcases Fact.fault?_eq_some h with ⟨rfl, hle⟩ | ⟨rfl, hvalue⟩
  · exact ⟨hle, facts, hlist, List.mem_map_of_mem hf⟩
  · exact ⟨hvalue, facts, hlist, hf⟩

theorem has_of_facts {place : Place} {facts : List Fact} {fault : Fault} (hlist : d.Lists facts place)
    (h : factFault? d.vars place none facts = some fault) : d.Has fault := by
  rcases Fact.factFault?_eq_some h with ⟨f, hf, hfault⟩ | ⟨var, rfl, hcount⟩
  · exact has_of_fact hlist hf hfault
  · exact ⟨facts, hlist, hcount⟩

/-- A fault says what is true of the draft. -/
theorem has_of_fault? {fault : Fault} (h : d.fault? = some fault) : d.Has fault := by
  simp only [fault?, Option.or_eq_some_iff] at h
  rcases h with h | ⟨-, h | ⟨-, h | ⟨-, h | ⟨-, h⟩⟩⟩⟩
  · unfold sizeFault? at h
    grind [Has]
  · obtain ⟨⟨v, i⟩, hv, h⟩ := List.exists_of_findSome?_eq_some h
    have hv := List.mk_mem_zipIdx_iff_getElem?.mp hv
    dsimp only at h
    split at h
    · rename_i hempty
      cases h
      rw [Array.getElem?_toList] at hv
      obtain ⟨name, values⟩ := v
      obtain rfl : values = [] := hempty
      exact hv
    · cases h
  · unfold initialFault? at h
    split at h
    · rename_i hne
      cases h
      exact ⟨rfl, rfl, Ne.symm hne⟩
    · obtain ⟨f, hf, h⟩ := List.exists_of_findSome?_eq_some h
      have hlist : d.Lists d.initialFacts .initialState := rfl
      exact has_of_fact hlist hf h
  · have hlist : d.Lists d.goal .goal := rfl
    exact has_of_facts hlist h
  · obtain ⟨o, ho, h⟩ := List.exists_of_findSome?_eq_some h
    have ho := Array.mem_toList_iff.mp ho
    unfold operatorFault? at h
    split at h
    · rename_i hcost
      cases h
      exact ⟨hcost, o, ho, rfl, rfl⟩
    · rcases Option.or_eq_some_iff.mp h with h | ⟨-, h⟩
      · have hlist : d.Lists o.preconditions (.precondition o.name) := ⟨o, ho, rfl, rfl⟩
        exact has_of_facts hlist h
      · have hlist : d.Lists o.effects (.effect o.name) := ⟨o, ho, rfl, rfl⟩
        exact has_of_facts hlist h

/-- The same draft but for the order of the facts in the goal and in the lists of each operator. -/
structure Permuted (d d' : Draft) : Prop where
  vars : d'.vars = d.vars
  initial : d'.initial = d.initial
  goal : d'.goal.Perm d.goal
  size : d'.operators.size = d.operators.size
  operators : ∀ (op : Nat) (o o' : Operator), d.operators[op]? = some o → d'.operators[op]? = some o' →
    o'.name = o.name ∧ o'.cost = o.cost ∧ o'.preconditions.Perm o.preconditions ∧ o'.effects.Perm o.effects

theorem Permuted.normalize_eq (h : d.Permuted d') : d'.normalize = d.normalize := by
  have hops : d'.operators.map Operator.normalize = d.operators.map Operator.normalize := by
    refine Array.ext (by simp [h.size]) fun op hop' hop => ?_
    rw [Array.size_map] at hop' hop
    obtain ⟨hname, hcost, hpre, heff⟩ := h.operators op _ _ (Array.getElem?_eq_getElem hop)
      (Array.getElem?_eq_getElem hop')
    simp only [Array.getElem_map, Operator.normalize, hname, hcost, Fact.sort_eq_of_perm hpre,
      Fact.sort_eq_of_perm heff]
  simp only [normalize, h.vars, h.initial, Fact.sort_eq_of_perm h.goal, hops]

end Draft

namespace Task

variable {d d' : Draft} {t : Task}

theorem ofDraft_eq_error_iff {fault : Fault} : ofDraft d = .error fault ↔ d.normalize.fault? = some fault := by
  unfold ofDraft
  split
  · rename_i hfault
    rw [hfault, Except.error.injEq, Option.some.injEq]
  · rename_i hnone
    simp [hnone]

theorem ofDraft_eq_ok_iff : ofDraft d = .ok t ↔ t.toDraft = d.normalize := by
  unfold ofDraft
  split
  · rename_i hfault
    refine iff_of_false nofun fun h => ?_
    rw [← h, t.faultless] at hfault
    cases hfault
  · obtain ⟨draft, _, _⟩ := t
    simp [eq_comm]

/-- The order of facts leaves no trace in the task. -/
theorem ofDraft_congr (h : d.normalize = d'.normalize) : ofDraft d = ofDraft d' := by
  cases hd' : ofDraft d' with
  | error fault => rw [ofDraft_eq_error_iff, h, ← ofDraft_eq_error_iff, hd']
  | ok t => rw [ofDraft_eq_ok_iff, h, ← ofDraft_eq_ok_iff, hd']

theorem ofDraft_toDraft (t : Task) : ofDraft t.toDraft = .ok t :=
  ofDraft_eq_ok_iff.mpr t.normalized.symm

theorem valid (t : Task) : t.toDraft.Valid :=
  ((Draft.fault?_eq_none_iff t.normalized).mp t.faultless).1

theorem countable (t : Task) : t.toDraft.Countable :=
  ((Draft.fault?_eq_none_iff t.normalized).mp t.faultless).2

theorem exists_ofDraft_iff : (∃ t, ofDraft d = .ok t) ↔ d.Valid ∧ d.Countable := by
  rw [← Draft.valid_normalize_iff, ← Draft.countable_normalize_iff]
  constructor
  · rintro ⟨t, ht⟩
    rw [← ofDraft_eq_ok_iff.mp ht]
    exact ⟨t.valid, t.countable⟩
  · exact fun h => ⟨⟨d.normalize, d.normalize_normalize,
      (Draft.fault?_eq_none_iff d.normalize_normalize).mpr h⟩, ofDraft_eq_ok_iff.mpr rfl⟩

/-- Of drafts within the limits exactly the valid ones are tasks, and the order of facts within their lists changes
neither the task nor the fault. -/
theorem ofDraft_exact (hvars : d.vars.size < 2 ^ 32) (hops : d.operators.size < 2 ^ 32) :
    ((∃ t, ofDraft d = .ok t) ↔ d.Valid) ∧ ∀ d', d.Permuted d' → ofDraft d' = ofDraft d := by
  refine ⟨?_, fun d' h => ofDraft_congr h.normalize_eq⟩
  have hcount : d.Countable := ⟨Nat.le_of_lt_succ hvars, Nat.le_of_lt_succ hops⟩
  rw [exists_ofDraft_iff, and_iff_left hcount]

/-- A lamp and its switch, with the facts that make up the goal and that pressing the switch makes true. -/
def lampDraft (facts : List Fact) : Draft where
  vars := #[⟨"switch", ["off", "on"]⟩, ⟨"lamp", ["off", "on"]⟩]
  operators := #[⟨"press", 1, [], facts⟩]
  initial := #[0, 0]
  goal := facts

theorem ofDraft_lampDraft : (lampDraft [⟨1, 1⟩, ⟨0, 1⟩]).Valid ∧
    ofDraft (lampDraft [⟨0, 1⟩, ⟨1, 1⟩]) = ofDraft (lampDraft [⟨1, 1⟩, ⟨0, 1⟩]) := by
  obtain ⟨hvalid, hperm⟩ := ofDraft_exact (d := lampDraft [⟨1, 1⟩, ⟨0, 1⟩]) (by decide) (by decide)
  have htask : ∃ t, ofDraft (lampDraft [⟨1, 1⟩, ⟨0, 1⟩]) = .ok t :=
    ⟨⟨(lampDraft [⟨1, 1⟩, ⟨0, 1⟩]).normalize, Draft.normalize_normalize _, by decide +kernel⟩,
      ofDraft_eq_ok_iff.mpr rfl⟩
  refine ⟨hvalid.mp htask, hperm _ ⟨rfl, rfl, .swap .., rfl, fun op o o' ho ho' => ?_⟩⟩
  cases op with
  | zero =>
    cases ho
    cases ho'
    exact ⟨rfl, rfl, .refl _, .swap ..⟩
  | succ op => cases ho

end Task

end RankedPlans
