import Mathlib.Data.Finset.Dedup
import Mathlib.Data.Finset.Filter
import Mathlib.Data.Finset.Range
import Mathlib.Data.Finset.SDiff
import RankedPlans.Proofs.Numbering
import RankedPlans.Proofs.Task.State
import RankedPlans.Task.Strips

/-! Tasks built from atoms, read as sets of atoms. Whatever calls a builder gets, in whatever order, its task is that of
the actions as they were given: an action may be applied where its preconditions hold, and takes its deleted atoms away
before it adds others. -/

namespace RankedPlans

theorem eraseDups_concat {α : Type} [DecidableEq α] (l : List α) (a : α) :
    (l ++ [a]).eraseDups = if a ∈ l.eraseDups then l.eraseDups else l.eraseDups ++ [a] := by
  rw [List.eraseDups_append]
  by_cases h : a ∈ l <;> simp [h, List.removeAll, List.eraseDups_cons]

theorem nodup_eraseDups {α : Type} [DecidableEq α] (l : List α) : l.eraseDups.Nodup := by
  induction l using List.reverseRecOn with
  | nil => exact List.nodup_nil
  | append_singleton l a ih =>
    rw [eraseDups_concat]
    split
    · exact ih
    · rename_i hnew
      exact ih.append (List.nodup_singleton a) (by simpa using hnew)

namespace Strips

/-- An action over atoms. -/
structure Action where
  name : String
  cost : Int
  pre : List Nat
  add : List Nat
  del : List Nat

/-- A call that adds to a task. -/
inductive Call where
  | atom (name : String)
  | action (a : Action)
  | init (atoms : List Nat)
  | goal (atoms : List Nat)

/-- The builder after one more call. -/
def perform (b : Strips) : Call → Strips
  | .atom name => (b.atom name).1
  | .action a => b.action a.name a.cost a.pre a.add a.del
  | .init atoms => b.addInit atoms
  | .goal atoms => b.addGoal atoms

/-- The builder after some calls. -/
def ofCalls (calls : List Call) : Strips :=
  calls.foldl perform {}

section Naive

/-- The name that a call declares. -/
def Call.name? : Call → Option String
  | atom name => some name
  | _ => none

/-- The action that a call adds. -/
def Call.action? : Call → Option Action
  | action a => some a
  | _ => none

/-- The atoms that a call makes hold at the start. -/
def Call.initial : Call → List Nat
  | init atoms => atoms
  | _ => []

/-- The atoms that a call makes part of the goal. -/
def Call.goals : Call → List Nat
  | goal atoms => atoms
  | _ => []

/-- The declared names in the order of their first declaration. -/
def names (calls : List Call) : List String :=
  (calls.filterMap Call.name?).eraseDups

def actions (calls : List Call) : List Action :=
  calls.filterMap Call.action?

def initialAtoms (calls : List Call) : List Nat :=
  calls.flatMap Call.initial

def goalAtoms (calls : List Call) : List Nat :=
  calls.flatMap Call.goals

/-- The atoms that an action mentions. -/
def Action.atoms (a : Action) : List Nat :=
  a.pre ++ a.add ++ a.del

/-- The state in which the atoms of a set are true, out of so many. -/
def holding (count : Nat) (atoms : Finset Nat) : State :=
  Array.ofFn fun a : Fin count => if a.val ∈ atoms then 1 else 0

end Naive

variable {b : Strips} {calls : List Call} {call : Call} {a : Action} {ids : List Nat} {f : Fact} {t : Task}

section Calls

/-- The effects of an action. -/
def Action.effects (a : Action) : List Fact :=
  facts (a.del.filter (· ∉ a.add)) 0 ++ facts a.add 1

/-- The operator for an action. -/
def Action.operator (a : Action) : Operator :=
  Operator.normalize ⟨a.name, a.cost, facts a.pre 1, a.effects⟩

/-- A builder holds what the calls say. -/
structure Follows (b : Strips) (calls : List Call) : Prop where
  atoms : b.atoms.items.toList = names calls
  operators : b.operators.toList = (actions calls).map Action.operator
  init : b.init = initialAtoms calls
  goal : b.goal = goalAtoms calls

theorem names_concat_of_none (calls : List Call) (h : call.name? = none) : names (calls ++ [call]) = names calls := by
  rw [names, List.filterMap_append, List.filterMap_cons_none h, List.filterMap_nil, List.append_nil, names]

theorem names_concat_atom (calls : List Call) (name : String) : names (calls ++ [.atom name]) =
    if name ∈ names calls then names calls else names calls ++ [name] := by
  rw [names, List.filterMap_append]
  exact eraseDups_concat _ _

theorem actions_concat (calls : List Call) (call : Call) :
    actions (calls ++ [call]) = actions calls ++ call.action?.toList := by
  cases call <;> simp [actions, Call.action?]

theorem initialAtoms_concat (calls : List Call) (call : Call) :
    initialAtoms (calls ++ [call]) = initialAtoms calls ++ call.initial := by
  simp [initialAtoms]

theorem goalAtoms_concat (calls : List Call) (call : Call) :
    goalAtoms (calls ++ [call]) = goalAtoms calls ++ call.goals := by
  simp [goalAtoms]

theorem Follows.perform (h : b.Follows calls) (call : Call) : (b.perform call).Follows (calls ++ [call]) := by
  -- each call changes one of the four parts
  refine ⟨?atoms, ?operators, ?init, ?goal⟩
  case atoms =>
    cases call with
    | atom name =>
      rw [names_concat_atom, ← h.atoms]
      exact b.atoms.toList_insert name
    | _ => exact h.atoms.trans (names_concat_of_none calls rfl).symm
  case operators =>
    rw [actions_concat, List.map_append, ← h.operators]
    cases call with
    | action a => exact Array.toList_push
    | _ => exact (List.append_nil _).symm
  case init =>
    rw [initialAtoms_concat, ← h.init]
    cases call with
    | init atoms => rfl
    | _ => exact (List.append_nil _).symm
  case goal =>
    rw [goalAtoms_concat, ← h.goal]
    cases call with
    | goal atoms => rfl
    | _ => exact (List.append_nil _).symm

theorem ofCalls_concat (calls : List Call) (call : Call) : ofCalls (calls ++ [call]) = (ofCalls calls).perform call :=
  List.foldl_append ..

theorem follows_ofCalls (calls : List Call) : (ofCalls calls).Follows calls := by
  induction calls using List.reverseRecOn with
  | nil => exact ⟨rfl, rfl, rfl, rfl⟩
  | append_singleton calls call ih =>
    rw [ofCalls_concat]
    exact ih.perform call

theorem nodup_names (calls : List Call) : (names calls).Nodup :=
  nodup_eraseDups _

/-- Later calls leave the names declared before in their places. -/
theorem names_append (calls later : List Call) : ∃ rest, names (calls ++ later) = names calls ++ rest := by
  rw [names, List.filterMap_append, List.eraseDups_append]
  exact ⟨_, rfl⟩

/-- The index of an atom is the place of its name among those declared, now or after later calls. -/
theorem atom_snd (before later : List Call) (name : String) :
    ((ofCalls before).atom name).2 = (names (before ++ .atom name :: later)).idxOf name := by
  have hafter := (follows_ofCalls (before ++ [.atom name])).atoms
  rw [ofCalls_concat] at hafter
  have hitem : (names (before ++ [.atom name]))[((ofCalls before).atom name).2]? = some name := by
    rw [← hafter, Array.getElem?_toList]
    exact (ofCalls before).atoms.item?_insert name
  obtain ⟨hlt, hget⟩ := List.getElem?_eq_some_iff.mp hitem
  have hindex : (names (before ++ [.atom name])).idxOf name = ((ofCalls before).atom name).2 := by
    have hindex := List.Nodup.idxOf_getElem (nodup_names (before ++ [.atom name])) _ hlt
    rwa [hget] at hindex
  obtain ⟨rest, hrest⟩ := names_append (before ++ [.atom name]) later
  rw [List.append_assoc, List.singleton_append] at hrest
  rw [hrest, List.idxOf_append_of_mem (List.mem_of_getElem? hitem), hindex]

end Calls

section Facts

variable {value count : Nat} {S : Finset Nat}

theorem mem_facts_iff : f ∈ facts ids value ↔ f.var ∈ ids ∧ f.value = value := by
  rw [facts, List.mem_map]
  constructor
  · rintro ⟨a, ha, rfl⟩
    exact ⟨List.mem_eraseDups.mp ha, rfl⟩
  · rintro ⟨hvar, rfl⟩
    exact ⟨f.var, List.mem_eraseDups.mpr hvar, rfl⟩

theorem map_var_facts (ids : List Nat) (value : Nat) : (facts ids value).map Fact.var = ids.eraseDups := by
  rw [facts, List.map_map]
  exact List.map_id _

theorem nodup_facts (ids : List Nat) (value : Nat) : ((facts ids value).map Fact.var).Nodup := by
  rw [map_var_facts]
  exact nodup_eraseDups ids

/-- An atom that is deleted and added is only added. -/
theorem mem_effects_iff : f ∈ a.effects ↔
    f.var ∈ a.del ∧ f.var ∉ a.add ∧ f.value = 0 ∨ f.var ∈ a.add ∧ f.value = 1 := by
  rw [Action.effects, List.mem_append, mem_facts_iff, mem_facts_iff, List.mem_filter, decide_eq_true_eq, and_assoc]

theorem mem_map_var_effects {x : Nat} : x ∈ a.effects.map Fact.var ↔ x ∈ a.del ∨ x ∈ a.add := by
  rw [Action.effects, List.map_append, map_var_facts, map_var_facts, List.mem_append, List.mem_eraseDups,
    List.mem_eraseDups, List.mem_filter, decide_eq_true_eq]
  tauto

theorem nodup_effects (a : Action) : (a.effects.map Fact.var).Nodup := by
  rw [Action.effects, List.map_append]
  refine List.Nodup.append (nodup_facts _ _) (nodup_facts _ _) fun x hdel hadd => ?_
  rw [map_var_facts, List.mem_eraseDups] at hdel hadd
  exact of_decide_eq_true (List.mem_filter.mp hdel).2 hadd

theorem isOf_draft_iff : f.IsOf b.draft.vars ↔ f.var < b.atoms.size ∧ f.value < 2 := by
  unfold Fact.IsOf draft Numbering.size
  rw [Array.getElem?_map]
  constructor
  · rintro ⟨v, hv, hvalue⟩
    obtain ⟨name, hname, rfl⟩ := Option.map_eq_some_iff.mp hv
    exact ⟨(Array.getElem?_eq_some_iff.mp hname).1, hvalue⟩
  · rintro ⟨hvar, hvalue⟩
    rw [Array.getElem?_eq_getElem hvar]
    exact ⟨_, rfl, hvalue⟩

theorem assign_facts_iff (hvalue : value < 2) :
    Fact.Assign b.draft.vars (facts ids value) ↔ ∀ x ∈ ids, x < b.atoms.size := by
  refine ⟨fun h x hx => ?_, fun h => ⟨fun f hf => ?_, nodup_facts _ _⟩⟩
  · exact (isOf_draft_iff.mp (h.isOf ⟨x, value⟩ (mem_facts_iff.mpr ⟨hx, rfl⟩))).1
  · obtain ⟨hvar, rfl⟩ := mem_facts_iff.mp hf
    exact isOf_draft_iff.mpr ⟨h _ hvar, hvalue⟩

theorem assign_effects_iff : Fact.Assign b.draft.vars a.effects ↔ ∀ x ∈ a.add ++ a.del, x < b.atoms.size := by
  constructor
  · intro h x hx
    by_cases hadd : x ∈ a.add
    · exact (isOf_draft_iff.mp (h.isOf ⟨x, 1⟩ (mem_effects_iff.mpr (.inr ⟨hadd, rfl⟩)))).1
    · have hdel := (List.mem_append.mp hx).resolve_left hadd
      exact (isOf_draft_iff.mp (h.isOf ⟨x, 0⟩ (mem_effects_iff.mpr (.inl ⟨hdel, hadd, rfl⟩)))).1
  · refine fun h => ⟨fun f hf => isOf_draft_iff.mpr ?_, nodup_effects a⟩
    rcases mem_effects_iff.mp hf with ⟨hdel, -, hvalue⟩ | ⟨hadd, hvalue⟩
    · exact ⟨h _ (List.mem_append_right _ hdel), by omega⟩
    · exact ⟨h _ (List.mem_append_left _ hadd), by omega⟩

theorem getElem?_holding (x : Nat) :
    (holding count S)[x]? = if x < count then some (if x ∈ S then 1 else 0) else none := by
  rw [holding, Array.getElem?_ofFn]
  split <;> rfl

theorem holds_holding_iff :
    f.holds (holding count S) = true ↔ f.var < count ∧ f.value = if f.var ∈ S then 1 else 0 := by
  rw [Fact.holds_iff, getElem?_holding]
  by_cases hvar : f.var < count
  · simp [hvar, eq_comm]
  · simp [hvar]

end Facts

section Build

theorem Follows.size_atoms (h : b.Follows calls) : b.atoms.size = (names calls).length := by
  rw [← h.atoms, Array.length_toList, Numbering.size]

theorem Follows.initial_draft (h : b.Follows calls) :
    b.draft.initial = holding (names calls).length (initialAtoms calls).toFinset := by
  have hinitial : b.draft.initial =
      b.init.foldl (fun s x => s.setIfInBounds (id x) 1) (Array.replicate b.atoms.size 0) := rfl
  refine Array.ext_getElem? fun x => ?_
  rw [hinitial, getElem?_foldl_setIfInBounds_const id 1, List.map_id, getElem?_holding, Array.getElem?_replicate,
    h.init, h.size_atoms]
  by_cases hx : x < (names calls).length
  · by_cases hmem : x ∈ initialAtoms calls <;> simp [hx, hmem]
  · simp [hx]

/-- What a builder asks of the calls. -/
structure Sound (calls : List Call) : Prop where
  declared : names calls ≠ []
  cost : ∀ a ∈ actions calls, 0 ≤ a.cost
  known : ∀ a ∈ actions calls, ∀ x ∈ a.pre ++ a.add ++ a.del, x < (names calls).length
  goal : ∀ x ∈ goalAtoms calls, x < (names calls).length

theorem isOf_of_holds_holding {S : Finset Nat} (h : f.holds (holding b.atoms.size S) = true) : f.IsOf b.draft.vars := by
  obtain ⟨hvar, hvalue⟩ := holds_holding_iff.mp h
  refine isOf_draft_iff.mpr ⟨hvar, ?_⟩
  rw [hvalue]
  split <;> decide

theorem Follows.valid_draft_iff (h : b.Follows calls) : b.draft.Valid ↔ Sound calls := by
  have hsize : b.draft.vars.size = b.atoms.size := Array.size_map
  have hinitial := h.initial_draft
  have hops : ∀ P : Operator → Prop, (∀ o ∈ b.draft.operators, P o) ↔ ∀ a ∈ actions calls, P a.operator := fun P => by
    rw [← List.forall_mem_map, ← h.operators]
    simp [draft]
  have hpre : (∀ o ∈ b.draft.operators, Fact.Assign b.draft.vars o.preconditions) ↔
      ∀ a ∈ actions calls, ∀ x ∈ a.pre, x < b.atoms.size :=
    (hops _).trans (forall₂_congr fun a _ => Fact.assign_sort_iff.trans (assign_facts_iff (by decide)))
  have heff : (∀ o ∈ b.draft.operators, Fact.Assign b.draft.vars o.effects) ↔
      ∀ a ∈ actions calls, ∀ x ∈ a.add ++ a.del, x < b.atoms.size :=
    (hops _).trans (forall₂_congr fun a _ => Fact.assign_sort_iff.trans assign_effects_iff)
  have hgoal : Fact.Assign b.draft.vars b.draft.goal ↔ ∀ x ∈ goalAtoms calls, x < b.atoms.size := by
    rw [← h.goal]
    exact assign_facts_iff (by decide)
  have hnames : 0 < b.draft.vars.size ↔ names calls ≠ [] := by
    rw [hsize, h.size_atoms, List.length_pos_iff]
  rw [← h.size_atoms] at hinitial
  constructor
  · intro hvalid
    refine ⟨hnames.mp hvalid.vars, (hops _).mp hvalid.cost, fun a ha x hx => ?_, fun x hx => ?_⟩
    · rw [← h.size_atoms]
      rw [List.append_assoc] at hx
      rcases List.mem_append.mp hx with hx | hx
      · exact hpre.mp hvalid.preconditions a ha x hx
      · exact heff.mp hvalid.effects a ha x hx
    · rw [← h.size_atoms]
      exact hgoal.mp hvalid.goal x hx
  · intro hsound
    have hknown (a : Action) (ha : a ∈ actions calls) x (hx : x ∈ a.pre ++ (a.add ++ a.del)) : x < b.atoms.size := by
      rw [h.size_atoms]
      exact hsound.known a ha x (List.append_assoc .. ▸ hx)
    refine ⟨hnames.mpr hsound.declared, fun v hv => ?_, ?_, fun var value hvalue => ?_, hgoal.mpr ?_,
      (hops _).mpr hsound.cost, hpre.mpr fun a ha x hx => hknown a ha x (List.mem_append_left _ hx),
      heff.mpr fun a ha x hx => hknown a ha x (List.mem_append_right _ hx)⟩
    · obtain ⟨name, -, rfl⟩ := Array.mem_map.mp hv
      exact List.cons_ne_nil _ _
    · rw [hinitial, holding, Array.size_ofFn, hsize]
    · rw [hinitial] at hvalue
      exact isOf_of_holds_holding (Fact.holds_iff.mpr hvalue)
    · rw [h.size_atoms]
      exact hsound.goal

theorem Follows.operators_normalize (h : b.Follows calls) :
    b.draft.normalize.operators.toList = (actions calls).map Action.operator := by
  rw [Draft.normalize, draft, Array.toList_map, h.operators, List.map_map]
  exact List.map_congr_left fun a _ => Operator.normalize_normalize _

/-- The facts of every list have different variables and no values but those of atoms. -/
theorem Follows.of_lists (h : b.Follows calls) {listed : List Fact} {place : Place}
    (hlist : b.draft.normalize.Lists listed place) : (listed.map Fact.var).Nodup ∧ ∀ f ∈ listed, f.value < 2 := by
  have hops : ∀ o ∈ b.draft.normalize.operators, ∃ a : Action, o = a.operator := fun o ho => by
    rw [← Array.mem_toList_iff, h.operators_normalize] at ho
    obtain ⟨a, -, rfl⟩ := List.mem_map.mp ho
    exact ⟨a, rfl⟩
  have hsort {unsorted : List Fact} (hnd : (unsorted.map Fact.var).Nodup) (hvalue : ∀ f ∈ unsorted, f.value < 2) :
      ((Fact.sort unsorted).map Fact.var).Nodup ∧ ∀ f ∈ Fact.sort unsorted, f.value < 2 :=
    ⟨((Fact.sort_perm unsorted).map Fact.var).nodup_iff.mpr hnd,
      fun f hf => hvalue f ((Fact.sort_perm unsorted).mem_iff.mp hf)⟩
  have hfacts (ids : List Nat) : ∀ f ∈ facts ids 1, f.value < 2 := fun f hf => by
    rw [(mem_facts_iff.mp hf).2]
    decide
  cases place with
  | initialState =>
    obtain rfl : listed = b.draft.initialFacts := hlist
    refine ⟨?_, fun f hf => ?_⟩
    · have hvars : b.draft.initialFacts.map Fact.var = b.draft.initial.toList.zipIdx.map Prod.snd := by
        rw [Draft.initialFacts, List.map_map]
        rfl
      rw [hvars, List.zipIdx_map_snd]
      exact List.nodup_range'
    · obtain ⟨⟨value, var⟩, hmem, rfl⟩ := List.mem_map.mp hf
      have hvalue := List.mk_mem_zipIdx_iff_getElem?.mp hmem
      rw [Array.getElem?_toList, h.initial_draft, ← h.size_atoms] at hvalue
      exact (isOf_draft_iff.mp (isOf_of_holds_holding (Fact.holds_iff.mpr hvalue))).2
  | goal =>
    obtain rfl : listed = Fact.sort (facts b.goal 1) := hlist
    exact hsort (nodup_facts _ _) (hfacts _)
  | precondition name =>
    obtain ⟨o, ho, -, rfl⟩ := hlist
    obtain ⟨a, rfl⟩ := hops o ho
    exact hsort (nodup_facts _ _) (hfacts _)
  | effect name =>
    obtain ⟨o, ho, -, rfl⟩ := hlist
    obtain ⟨a, rfl⟩ := hops o ho
    refine hsort (nodup_effects a) fun f hf => ?_
    rcases mem_effects_iff.mp hf with ⟨-, -, hvalue⟩ | ⟨-, hvalue⟩ <;> omega

/-- No list of a builder has a variable twice, and no variable lacks a value. -/
theorem Follows.build_ne_error (h : b.Follows calls) (place : Place) (var value : Nat) :
    b.build ≠ .error (.repeatedVariable place var) ∧ b.build ≠ .error (.unknownValue place var value) := by
  refine ⟨fun hfault => ?_, fun hfault => ?_⟩
  · obtain ⟨listed, hlist, hcount⟩ := Draft.has_of_fault? (Task.ofDraft_eq_error_iff.mp hfault)
    have := List.nodup_iff_count_le_one.mp (h.of_lists hlist).1 var
    omega
  · obtain ⟨⟨v, hv, hle⟩, listed, hlist, hmem⟩ := Draft.has_of_fault? (Task.ofDraft_eq_error_iff.mp hfault)
    have hlt := (h.of_lists hlist).2 _ hmem
    obtain ⟨name, -, rfl⟩ := Array.mem_map.mp (Array.mem_of_getElem? hv)
    exact absurd hlt (Nat.not_lt.mpr hle)

theorem Follows.exists_build_iff (h : b.Follows calls) : (∃ t, b.build = .ok t) ↔
    Sound calls ∧ (names calls).length ≤ Draft.countLimit ∧ (actions calls).length ≤ Draft.countLimit := by
  have hvars : b.draft.vars.size = (names calls).length := Array.size_map.trans h.size_atoms
  have hops : b.draft.operators.size = (actions calls).length := by
    rw [draft, ← Array.length_toList, h.operators, List.length_map]
  rw [build, Task.exists_ofDraft_iff, h.valid_draft_iff]
  refine and_congr_right fun _ => ⟨fun hcount => ?_, fun ⟨hnames, hactions⟩ => ⟨?_, ?_⟩⟩
  · exact ⟨hvars ▸ hcount.vars, hops ▸ hcount.operators⟩
  · rwa [hvars]
  · rwa [hops]

end Build

section Semantics

/-- The task of some calls, as sets of atoms. -/
structure Realizes (t : Task) (calls : List Call) : Prop where
  size : t.operators.size = (actions calls).length
  operator : ∀ (op : Nat) (a : Action), (actions calls)[op]? = some a →
    (t.operator op).name = a.name ∧ (t.operator op).cost = a.cost
  applicable : ∀ (op : Nat) (a : Action), (actions calls)[op]? = some a → ∀ S : Finset Nat,
    (t.operator op).applicable (holding (names calls).length S) = true ↔ a.pre.toFinset ⊆ S
  apply : ∀ (op : Nat) (a : Action), (actions calls)[op]? = some a → ∀ S : Finset Nat,
    t.apply (holding (names calls).length S) op =
      holding (names calls).length ((S \ a.del.toFinset) ∪ a.add.toFinset)
  isGoal : ∀ S : Finset Nat, t.isGoal (holding (names calls).length S) = true ↔ (goalAtoms calls).toFinset ⊆ S
  initial : t.initial = holding (names calls).length ((initialAtoms calls).toFinset ∩ Finset.range (names calls).length)
  states : ∀ s, t.IsState s ↔ ∃ S ⊆ Finset.range (names calls).length, s = holding (names calls).length S

variable {count : Nat} {S : Finset Nat}

theorem all_holds_facts_iff (hids : ∀ x ∈ ids, x < count) :
    (∀ f ∈ facts ids 1, f.holds (holding count S) = true) ↔ ids.toFinset ⊆ S := by
  constructor
  · intro h x hx
    have hx := List.mem_toFinset.mp hx
    have hholds := (holds_holding_iff.mp (h ⟨x, 1⟩ (mem_facts_iff.mpr ⟨hx, rfl⟩))).2
    by_contra hnot
    rw [if_neg hnot] at hholds
    cases hholds
  · intro h f hf
    obtain ⟨hvar, hvalue⟩ := mem_facts_iff.mp hf
    exact holds_holding_iff.mpr ⟨hids _ hvar, by rw [hvalue, if_pos (h (List.mem_toFinset.mpr hvar))]⟩

theorem holding_inter_range (count : Nat) (S : Finset Nat) :
    holding count (S ∩ Finset.range count) = holding count S := by
  refine Array.ext_getElem? fun x => ?_
  rw [getElem?_holding, getElem?_holding]
  by_cases hx : x < count <;> simp [hx]

section Built

variable (h : b.Follows calls) (ht : b.build = .ok t)
include h ht

theorem Follows.toList_operators : t.operators.toList = (actions calls).map Action.operator := by
  rw [Task.ofDraft_eq_ok_iff.mp ht, h.operators_normalize]

theorem Follows.operator_eq {op : Nat} (ha : (actions calls)[op]? = some a) : t.operator op = a.operator := by
  have hop : t.operators[op]? = some a.operator := by
    rw [← Array.getElem?_toList, h.toList_operators ht, List.getElem?_map, ha, Option.map_some]
  rw [Task.operator, Array.getD_eq_getD_getElem?, hop, Option.getD_some]

theorem Follows.isFact_iff : t.IsFact f ↔ f.var < (names calls).length ∧ f.value < 2 := by
  have hvars : t.vars = b.draft.normalize.vars := congrArg Draft.vars (Task.ofDraft_eq_ok_iff.mp ht)
  rw [← h.size_atoms, ← isOf_draft_iff]
  exact hvars ▸ Iff.rfl

theorem Follows.size_vars : t.vars.size = (names calls).length := by
  rw [Task.ofDraft_eq_ok_iff.mp ht, ← h.size_atoms]
  exact Array.size_map

theorem Follows.isState_holding (S : Finset Nat) : t.IsState (holding (names calls).length S) := by
  refine ⟨by rw [holding, Array.size_ofFn, h.size_vars ht], fun {f} hf => ?_⟩
  obtain ⟨hvar, hvalue⟩ := holds_holding_iff.mp hf
  refine (h.isFact_iff ht).mpr ⟨hvar, ?_⟩
  rw [hvalue]
  split <;> decide

theorem Follows.isState_iff (s : State) :
    t.IsState s ↔ ∃ S ⊆ Finset.range (names calls).length, s = holding (names calls).length S := by
  refine ⟨fun hs => ?_, fun ⟨S, _, hs⟩ => hs ▸ h.isState_holding ht S⟩
  -- the atoms of the set are those whose variables have the value one
  refine ⟨(Finset.range (names calls).length).filter (fun x => s[x]? = some 1), Finset.filter_subset _ _,
    hs.ext (h.isState_holding ht _) fun f hf => holds_holding_iff.mpr ?_⟩
  obtain ⟨hvar, hvalue⟩ := (h.isFact_iff ht).mp (hs.isFact hf)
  rw [Fact.holds_iff] at hf
  refine ⟨hvar, ?_⟩
  simp only [Finset.mem_filter, Finset.mem_range, hvar, hf, true_and, Option.some.injEq]
  split <;> omega

theorem Follows.known {op : Nat} (ha : (actions calls)[op]? = some a) :
    ∀ x ∈ a.pre ++ a.add ++ a.del, x < (names calls).length :=
  (h.exists_build_iff.mp ⟨t, ht⟩).1.known a (List.mem_of_getElem? ha)

theorem Follows.applicable_iff {op : Nat} (ha : (actions calls)[op]? = some a) (S : Finset Nat) :
    (t.operator op).applicable (holding (names calls).length S) = true ↔ a.pre.toFinset ⊆ S := by
  have hpre : ∀ x ∈ a.pre, x < (names calls).length := fun x hx =>
    h.known ht ha x (List.mem_append_left _ (List.mem_append_left _ hx))
  rw [h.operator_eq ht ha, Operator.applicable_iff, ← all_holds_facts_iff hpre]
  exact forall_congr' fun f => imp_congr_left (Fact.sort_perm (facts a.pre 1)).mem_iff

/-- Atoms that are added come out true, also if they are deleted, and those that are only deleted come out false. -/
theorem Follows.apply_eq {op : Nat} (ha : (actions calls)[op]? = some a) (S : Finset Nat) :
    t.apply (holding (names calls).length S) op =
      holding (names calls).length ((S \ a.del.toFinset) ∪ a.add.toFinset) := by
  have hs := h.isState_holding ht S
  refine (hs.apply op).ext (h.isState_holding ht _) fun f hf => ?_
  have hfact := (hs.apply op).isFact hf
  obtain ⟨hvar, hvalue⟩ := (h.isFact_iff ht).mp hfact
  have heffects : (t.operator op).effects.Perm a.effects := by
    rw [h.operator_eq ht ha]
    exact Fact.sort_perm a.effects
  rw [Task.holds_apply_iff hs hfact, heffects.mem_iff, (heffects.map Fact.var).mem_iff, mem_effects_iff,
    mem_map_var_effects, holds_holding_iff] at hf
  refine holds_holding_iff.mpr ⟨hvar, ?_⟩
  simp only [Finset.mem_union, Finset.mem_sdiff, List.mem_toFinset]
  grind

theorem Follows.isGoal_iff (S : Finset Nat) :
    t.isGoal (holding (names calls).length S) = true ↔ (goalAtoms calls).toFinset ⊆ S := by
  have hgoal : t.goal = Fact.sort (facts (goalAtoms calls) 1) := by
    rw [Task.ofDraft_eq_ok_iff.mp ht, ← h.goal]
    rfl
  rw [Task.isGoal_iff, hgoal, ← all_holds_facts_iff (h.exists_build_iff.mp ⟨t, ht⟩).1.goal]
  exact forall_congr' fun f => imp_congr_left (Fact.sort_perm (facts (goalAtoms calls) 1)).mem_iff

theorem Follows.realizes : Realizes t calls where
  size := by rw [← Array.length_toList, h.toList_operators ht, List.length_map]
  operator op a ha := by
    rw [h.operator_eq ht ha]
    exact ⟨rfl, rfl⟩
  applicable op a ha := h.applicable_iff ht ha
  apply op a ha := h.apply_eq ht ha
  isGoal := h.isGoal_iff ht
  initial := by
    rw [holding_inter_range, ← h.initial_draft, Task.ofDraft_eq_ok_iff.mp ht]
    rfl
  states := h.isState_iff ht

end Built

/-- What becomes of any calls of a builder. The index of an atom is the place of its name among those declared, in the
order of their first declarations. There is a task if and only if an atom was declared, no action has a negative cost
and all atoms of actions and of the goal were declared, before or after, where atoms and actions can be numbered at all;
whatever else goes wrong, no list has a variable twice or a value out of range. The task is that of the actions. -/
theorem build_ofCalls (calls : List Call) :
    (∀ before name later, calls = before ++ .atom name :: later →
      ((ofCalls before).atom name).2 = (names calls).idxOf name) ∧
    ((∃ t, (ofCalls calls).build = .ok t) ↔
      Sound calls ∧ (names calls).length ≤ Draft.countLimit ∧ (actions calls).length ≤ Draft.countLimit) ∧
    (∀ place var value, (ofCalls calls).build ≠ .error (.repeatedVariable place var) ∧
      (ofCalls calls).build ≠ .error (.unknownValue place var value)) ∧
    ∀ t, (ofCalls calls).build = .ok t → Realizes t calls := by
  have h := follows_ofCalls calls
  refine ⟨fun before name later heq => ?_, h.exists_build_iff, h.build_ne_error, fun t ht => h.realizes ht⟩
  subst heq
  exact atom_snd before later name

/-- An action that deletes an atom and adds it as well. -/
def touchCalls : List Call :=
  [.atom "p", .action ⟨"touch", 1, [0], [0, 1], [0]⟩, .init [0], .goal [1], .atom "q"]

theorem build_touchCalls : ∃ t, (ofCalls touchCalls).build = .ok t ∧ t.isGoal t.initial = false ∧
    t.apply t.initial 0 = #[1, 1] ∧ t.isGoal (t.apply t.initial 0) = true := by
  obtain ⟨-, hbuild, -, hrealizes⟩ := build_ofCalls touchCalls
  have hnames : names touchCalls = ["p", "q"] := by decide
  have hsound : Sound touchCalls := by
    refine ⟨by decide, List.forall_mem_singleton.mpr (by decide), ?_, by decide⟩
    rw [hnames]
    exact List.forall_mem_singleton.mpr (by decide)
  obtain ⟨t, ht⟩ := hbuild.mpr ⟨hsound, by decide, by decide⟩
  have h := hrealizes t ht
  have hinitial : t.initial = holding (names touchCalls).length {0} := by
    rw [h.initial]
    decide
  have happly : t.apply t.initial 0 = holding (names touchCalls).length {0, 1} := by
    rw [hinitial, h.apply 0 _ rfl]
    decide
  refine ⟨t, ht, ?_, happly.trans (by decide), ?_⟩
  · rw [hinitial, Bool.eq_false_iff, Ne, h.isGoal]
    decide
  · rw [happly, h.isGoal]
    decide

end Semantics

end Strips

end RankedPlans
