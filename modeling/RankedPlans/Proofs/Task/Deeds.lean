import Mathlib.Data.Set.Function
import RankedPlans.Proofs.Task.Strips

/-! Tasks described by names. The entries of a description become calls of a builder, and the task that is built is that
of the actions over whatever the names stand for, provided that different atoms have different names. -/

namespace RankedPlans

/-- Whether the atom of a name is true in a state. -/
def Task.Holds (t : Task) (s : State) (name : String) : Prop :=
  ∃ (x : Nat) (v : Variable), t.vars[x]? = some v ∧ v.name = name ∧ s[x]? = some 1

namespace Strips

/-- An action over atoms of some kind. -/
structure Deed (α : Type) where
  name : String
  cost : Int
  pre : List α
  add : List α
  del : List α

def Deed.map {α β : Type} (f : α → β) (d : Deed α) : Deed β :=
  ⟨d.name, d.cost, d.pre.map f, d.add.map f, d.del.map f⟩

/-- The atoms that an action mentions, in the order in which they are declared. -/
def Deed.atoms {α : Type} (d : Deed α) : List α :=
  d.pre ++ d.add ++ d.del

/-- The action over the places of its atoms in a list of names. -/
def Deed.action (names : List String) (d : Deed String) : Action :=
  ⟨d.name, d.cost, d.pre.map names.idxOf, d.add.map names.idxOf, d.del.map names.idxOf⟩

def Entry.deed? : Entry → Option (Deed String)
  | .atom _ => none
  | .action name cost pre add del => some ⟨name, cost, pre, add, del⟩

def Entry.mentioned : Entry → List String
  | .atom name => [name]
  | .action _ _ pre add del => pre ++ add ++ del

/-- The calls for an entry, with atoms as places in a list of names. -/
def Entry.calls (names : List String) : Entry → List Call
  | .atom name => [.atom name]
  | .action name cost pre add del =>
    (pre ++ add ++ del).map .atom ++ [.action (Deed.action names ⟨name, cost, pre, add, del⟩)]

/-- The names of a description in the order of their first mention. -/
def declared (entries : List Entry) (init goal : List String) : List String :=
  (entries.flatMap Entry.mentioned ++ (init ++ goal)).eraseDups

/-- The calls for a description, with atoms as places in a list of names. -/
def callsOf (names : List String) (entries : List Entry) (init goal : List String) : List Call :=
  entries.flatMap (Entry.calls names) ++ (init ++ goal).map .atom ++
    [.init (init.map names.idxOf), .goal (goal.map names.idxOf)]

variable {t : Task} {s : State} {entries : List Entry} {init goal : List String}

section Calls

variable {before calls : List Call}

theorem filterMap_name?_map_atom (ns : List String) : (ns.map Call.atom).filterMap Call.name? = ns := by
  rw [List.filterMap_map]
  exact List.filterMap_some

theorem filterMap_name?_calls (names : List String) (e : Entry) :
    (e.calls names).filterMap Call.name? = e.mentioned := by
  cases e with
  | atom name => rfl
  | action name cost pre add del =>
    rw [Entry.calls, List.filterMap_append, filterMap_name?_map_atom]
    exact List.append_nil _

theorem names_callsOf (ns : List String) (entries : List Entry) (init goal : List String) :
    names (callsOf ns entries init goal) = declared entries init goal := by
  rw [names, callsOf, List.filterMap_append, List.filterMap_append, filterMap_name?_map_atom,
    List.filterMap_flatMap]
  simp only [filterMap_name?_calls]
  exact congrArg List.eraseDups (List.append_nil _)

/-- Atoms that are declared one after the other get their places among all names. -/
theorem atomList_ofCalls {ns : List String} (h : before ++ ns.map .atom <+: calls) :
    (ofCalls before).atomList ns = (ofCalls (before ++ ns.map .atom), ns.map (names calls).idxOf) := by
  -- the place of a name among those declared so far is its place in the end, since later calls only add names
  induction ns generalizing before with
  | nil => rw [List.map_nil, List.append_nil, List.map_nil, atomList]
  | cons n ns ih =>
    rw [List.map_cons, List.append_cons] at h ⊢
    obtain ⟨later, hlater⟩ := h
    have hid := atom_snd before (ns.map .atom ++ later) n
    rw [List.append_cons, ← List.append_assoc, hlater] at hid
    have hatom : (ofCalls before).atom n = (ofCalls (before ++ [.atom n]), (names calls).idxOf n) :=
      Prod.ext (ofCalls_concat before (.atom n)).symm hid
    rw [atomList, hatom]
    simp only [ih ⟨later, hlater⟩, List.map_cons]

theorem addEntry_ofCalls {e : Entry} (h : before ++ e.calls (names calls) <+: calls) :
    (ofCalls before).addEntry e = ofCalls (before ++ e.calls (names calls)) := by
  cases e with
  | atom name => exact (ofCalls_concat before (.atom name)).symm
  | action name cost pre add del =>
    rw [Entry.calls, List.map_append, List.map_append, ← List.append_assoc, ← List.append_assoc,
      ← List.append_assoc] at h ⊢
    have hdel := (List.prefix_append ..).trans h
    have hadd := (List.prefix_append ..).trans hdel
    have hpre := (List.prefix_append ..).trans hadd
    rw [ofCalls_concat, addEntry, atomList_ofCalls hpre]
    simp only
    rw [atomList_ofCalls hadd]
    simp only
    rw [atomList_ofCalls hdel]
    rfl

theorem foldl_addEntry_ofCalls {entries : List Entry}
    (h : before ++ entries.flatMap (Entry.calls (names calls)) <+: calls) :
    entries.foldl addEntry (ofCalls before) = ofCalls (before ++ entries.flatMap (Entry.calls (names calls))) := by
  induction entries generalizing before with
  | nil => rw [List.flatMap_nil, List.append_nil, List.foldl_nil]
  | cons e entries ih =>
    rw [List.flatMap_cons, ← List.append_assoc] at h ⊢
    rw [List.foldl_cons, addEntry_ofCalls ((List.prefix_append ..).trans h), ih h]

/-- A description makes the calls of its entries, with every atom at its place among the declared names. -/
theorem ofEntries_eq_ofCalls (entries : List Entry) (init goal : List String) :
    ofEntries entries init goal = ofCalls (callsOf (declared entries init goal) entries init goal) := by
  generalize hcalls : callsOf (declared entries init goal) entries init goal = calls
  have hnames : names calls = declared entries init goal := hcalls ▸ names_callsOf _ entries init goal
  rw [← hnames, callsOf, List.map_append, ← List.append_assoc] at hcalls
  -- entries, start and goal are read one after the other, and the calls for each of them are a beginning of all
  have hgoal : _ <+: calls := ⟨_, hcalls⟩
  have hinit := (List.prefix_append ..).trans hgoal
  have hentries : entries.foldl addEntry (ofCalls []) = _ :=
    foldl_addEntry_ofCalls ((List.prefix_append ..).trans hinit)
  rw [List.nil_append] at hentries
  refine Eq.trans ?_ (congrArg ofCalls hcalls)
  rw [ofEntries, show ({} : Strips) = ofCalls [] from rfl, hentries]
  simp only
  rw [atomList_ofCalls hinit]
  simp only
  rw [atomList_ofCalls hgoal, List.append_cons, ofCalls_concat, ofCalls_concat]
  rfl

theorem action?_calls (names : List String) (e : Entry) :
    (e.calls names).filterMap Call.action? = (e.deed?.map (Deed.action names)).toList := by
  cases e with
  | atom name => rfl
  | action name cost pre add del => simp [Entry.calls, Entry.deed?, Call.action?, Function.comp_def]

theorem actions_callsOf (ns : List String) (entries : List Entry) (init goal : List String) :
    actions (callsOf ns entries init goal) = (entries.filterMap Entry.deed?).map (Deed.action ns) := by
  have hatoms (l : List String) : (l.map Call.atom).filterMap Call.action? = [] := by
    simp [List.filterMap_map, Function.comp_def, Call.action?]
  have htail : [Call.init (init.map ns.idxOf), .goal (goal.map ns.idxOf)].filterMap Call.action? = [] := rfl
  rw [actions, callsOf, List.filterMap_append, List.filterMap_append, hatoms, htail, List.append_nil, List.append_nil,
    List.filterMap_flatMap, List.map_filterMap, List.filterMap_eq_flatMap_toList]
  simp only [action?_calls]

/-- Entries say nothing of the start and the goal. -/
theorem initial_goals_calls {ns : List String} {e : Entry} {call : Call} (h : call ∈ e.calls ns) :
    call.initial = [] ∧ call.goals = [] := by
  cases e with
  | atom name =>
    obtain rfl := List.mem_singleton.mp h
    exact ⟨rfl, rfl⟩
  | action name cost pre add del =>
    rcases List.mem_append.mp h with h | h
    · obtain ⟨n, -, rfl⟩ := List.mem_map.mp h
      exact ⟨rfl, rfl⟩
    · obtain rfl := List.mem_singleton.mp h
      exact ⟨rfl, rfl⟩

theorem initialAtoms_callsOf (ns : List String) (entries : List Entry) (init goal : List String) :
    initialAtoms (callsOf ns entries init goal) = init.map ns.idxOf := by
  have hentries : (entries.flatMap (Entry.calls ns)).flatMap Call.initial = [] :=
    List.flatMap_eq_nil_iff.mpr fun call hcall => by
      obtain ⟨e, -, hcall⟩ := List.mem_flatMap.mp hcall
      exact (initial_goals_calls hcall).1
  have hatoms : ((init ++ goal).map Call.atom).flatMap Call.initial = [] :=
    List.flatMap_eq_nil_iff.mpr (List.forall_mem_map.mpr fun _ _ => rfl)
  rw [initialAtoms, callsOf, List.flatMap_append, List.flatMap_append, hentries, hatoms]
  exact List.append_nil _

theorem goalAtoms_callsOf (ns : List String) (entries : List Entry) (init goal : List String) :
    goalAtoms (callsOf ns entries init goal) = goal.map ns.idxOf := by
  have hentries : (entries.flatMap (Entry.calls ns)).flatMap Call.goals = [] :=
    List.flatMap_eq_nil_iff.mpr fun call hcall => by
      obtain ⟨e, -, hcall⟩ := List.mem_flatMap.mp hcall
      exact (initial_goals_calls hcall).2
  have hatoms : ((init ++ goal).map Call.atom).flatMap Call.goals = [] :=
    List.flatMap_eq_nil_iff.mpr (List.forall_mem_map.mpr fun _ _ => rfl)
  rw [goalAtoms, callsOf, List.flatMap_append, List.flatMap_append, hentries, hatoms]
  exact List.append_nil _

end Calls

section Semantics

/-- The task of some actions over atoms that names stand for. Its states are told apart by the atoms that hold. -/
structure Enacts {α : Type} (t : Task) (name : α → String) (known : Set α) (deeds : List (Deed α))
    (init goal : List α) : Prop where
  size : t.operators.size = deeds.length
  operator : ∀ {op : Nat} {d : Deed α}, deeds[op]? = some d →
    (t.operator op).name = d.name ∧ (t.operator op).cost = d.cost
  applicable : ∀ {op : Nat} {d : Deed α}, deeds[op]? = some d → ∀ {s}, t.IsState s →
    ((t.operator op).applicable s = true ↔ ∀ a ∈ d.pre, t.Holds s (name a))
  apply : ∀ {op : Nat} {d : Deed α}, deeds[op]? = some d → ∀ {s}, t.IsState s → ∀ {a}, a ∈ known →
    (t.Holds (t.apply s op) (name a) ↔ a ∈ d.add ∨ a ∉ d.del ∧ t.Holds s (name a))
  isGoal : ∀ {s}, t.IsState s → (t.isGoal s = true ↔ ∀ a ∈ goal, t.Holds s (name a))
  initial : ∀ {a}, a ∈ known → (t.Holds t.initial (name a) ↔ a ∈ init)

variable {calls : List Call} {b : Strips}

theorem Follows.getElem?_vars (h : b.Follows calls) (ht : b.build = .ok t) (x : Nat) :
    t.vars[x]? = (names calls)[x]?.map fun name => ⟨name, ["not " ++ name, name]⟩ := by
  rw [Task.ofDraft_eq_ok_iff.mp ht, ← h.atoms, Array.getElem?_toList]
  exact Array.getElem?_map ..

/-- In the state of a set of places, the names at these places hold. -/
theorem Follows.holds_holding_iff (h : b.Follows calls) (ht : b.build = .ok t) {S : Finset Nat} {name : String} :
    t.Holds (holding (names calls).length S) name ↔ name ∈ names calls ∧ (names calls).idxOf name ∈ S := by
  constructor
  · rintro ⟨x, v, hv, rfl, hone⟩
    rw [h.getElem?_vars ht] at hv
    obtain ⟨name, hname, rfl⟩ := Option.map_eq_some_iff.mp hv
    obtain ⟨hlt, rfl⟩ := List.getElem?_eq_some_iff.mp hname
    refine ⟨List.getElem_mem hlt, ?_⟩
    rw [List.Nodup.idxOf_getElem (nodup_names calls) x hlt]
    rw [getElem?_holding, if_pos hlt] at hone
    by_contra hnot
    rw [if_neg hnot] at hone
    cases hone
  · rintro ⟨hname, hmem⟩
    have hlt := List.idxOf_lt_length_of_mem hname
    refine ⟨(names calls).idxOf name, ⟨name, ["not " ++ name, name]⟩, ?_, rfl, ?_⟩
    · rw [h.getElem?_vars ht, List.getElem?_idxOf hname, Option.map_some]
    · rw [getElem?_holding, if_pos hlt, if_pos hmem]

theorem mem_map_iff_of_injOn {α β : Type} {f : α → β} {known : Set α} (hinj : Set.InjOn f known) {a : α}
    (ha : a ∈ known) {l : List α} (hl : ∀ b ∈ l, b ∈ known) : f a ∈ l.map f ↔ a ∈ l := by
  refine ⟨fun h => ?_, List.mem_map_of_mem⟩
  obtain ⟨b, hb, heq⟩ := List.mem_map.mp h
  exact hinj (hl b hb) ha heq ▸ hb

theorem injOn_idxOf (ns : List String) : Set.InjOn ns.idxOf {n | n ∈ ns} :=
  fun _ hn _ _ heq => (List.idxOf_inj hn).mp heq

theorem mem_declared_iff {name : String} : name ∈ declared entries init goal ↔
    (∃ e ∈ entries, name ∈ e.mentioned) ∨ name ∈ init ∨ name ∈ goal := by
  rw [declared, List.mem_eraseDups, List.mem_append, List.mem_flatMap, List.mem_append]

theorem mem_declared_of_deed {d : Deed String} (hd : d ∈ entries.filterMap Entry.deed?) {name : String}
    (hname : name ∈ d.atoms) : name ∈ declared entries init goal := by
  obtain ⟨e, he, hdeed⟩ := List.mem_filterMap.mp hd
  refine mem_declared_iff.mpr (.inl ⟨e, he, ?_⟩)
  cases e with
  | atom name => cases hdeed
  | action name cost pre add del =>
    obtain rfl := Option.some.inj hdeed
    exact hname

/-- All places of a list are in a set if and only if all its names hold. -/
theorem Follows.subset_iff (h : b.Follows calls) (ht : b.build = .ok t) {S : Finset Nat} {l : List String}
    (hl : ∀ name ∈ l, name ∈ names calls) : (l.map (names calls).idxOf).toFinset ⊆ S ↔
      ∀ name ∈ l, t.Holds (holding (names calls).length S) name := by
  constructor
  · intro hsub name hname
    exact (h.holds_holding_iff ht).mpr ⟨hl name hname, hsub (List.mem_toFinset.mpr (List.mem_map_of_mem hname))⟩
  · intro hall x hx
    obtain ⟨name, hname, rfl⟩ := List.mem_map.mp (List.mem_toFinset.mp hx)
    exact ((h.holds_holding_iff ht).mp (hall name hname)).2

/-- A name holds if it is added, or if it held and is not deleted. -/
theorem Follows.holds_apply_iff (h : b.Follows calls) (ht : b.build = .ok t) {op : Nat} {d : Deed String}
    (hd : (actions calls)[op]? = some (d.action (names calls))) (hl : ∀ name ∈ d.atoms, name ∈ names calls)
    {S : Finset Nat} {name : String} : t.Holds (t.apply (holding (names calls).length S) op) name ↔
      name ∈ d.add ∨ name ∉ d.del ∧ t.Holds (holding (names calls).length S) name := by
  have hadd : ∀ n ∈ d.add, n ∈ names calls := fun n hn => hl n (List.mem_append_left _ (List.mem_append_right _ hn))
  have hdel : ∀ n ∈ d.del, n ∈ names calls := fun n hn => hl n (List.mem_append_right _ hn)
  rw [(h.realizes ht).apply op _ hd, h.holds_holding_iff ht, h.holds_holding_iff ht, Finset.mem_union, Finset.mem_sdiff,
    List.mem_toFinset, List.mem_toFinset]
  by_cases hname : name ∈ names calls
  · have hmem {l : List String} (hl : ∀ n ∈ l, n ∈ names calls) :=
      mem_map_iff_of_injOn (injOn_idxOf (names calls)) hname hl
    simp only [Deed.action, hmem hadd, hmem hdel, hname, true_and]
    exact or_comm.trans (or_congr_right and_comm)
  · have hnot : name ∉ d.add := fun hmem => hname (hadd name hmem)
    simp only [hname, hnot, false_and, and_false, or_self]

/-- A description whose actions are some deeds, over atoms with different names. -/
theorem enacts_of_build {α : Type} {name : α → String} {known : Set α} {deeds : List (Deed α)} {init goal : List α}
    (hdeeds : entries.filterMap Entry.deed? = deeds.map (Deed.map name)) (hinj : Set.InjOn name known)
    (hknown : ∀ d ∈ deeds, ∀ a ∈ d.atoms, a ∈ known) (hinit : ∀ a ∈ init, a ∈ known)
    (ht : (ofEntries entries (init.map name) (goal.map name)).build = .ok t) :
    Enacts t name known deeds init goal := by
  rw [ofEntries_eq_ofCalls] at ht
  generalize hcalls : callsOf _ entries (init.map name) (goal.map name) = calls at ht
  have h := follows_ofCalls calls
  have hr := h.realizes ht
  have hnames : names calls = declared entries (init.map name) (goal.map name) := hcalls ▸ names_callsOf ..
  rw [← hnames] at hcalls
  have hactions : actions calls = deeds.map fun d => Deed.action (names calls) (d.map name) := by
    conv_lhs => rw [← hcalls, actions_callsOf, hdeeds, List.map_map]
    rfl
  have hd {op : Nat} {d : Deed α} (hd : deeds[op]? = some d) :
      (actions calls)[op]? = some ((d.map name).action (names calls)) := by
    rw [hactions, List.getElem?_map, hd, Option.map_some]
  have hdeclared {op : Nat} {d : Deed α} (hd : deeds[op]? = some d) : ∀ n ∈ (d.map name).atoms, n ∈ names calls :=
    fun n hn => hnames ▸ mem_declared_of_deed (hdeeds ▸ List.mem_map_of_mem (List.mem_of_getElem? hd)) hn
  -- a state is the one of a set of places, and a name holds in it if its place is in the set
  refine ⟨?size, ?operator, ?applicable, ?apply, ?isGoal, ?initial⟩
  case size => rw [hr.size, hactions, List.length_map]
  case operator => exact fun h => hr.operator _ _ (hd h)
  case applicable =>
    intro op d hop s hs
    obtain ⟨S, -, rfl⟩ := (hr.states s).mp hs
    rw [hr.applicable op _ (hd hop), ← List.forall_mem_map]
    exact h.subset_iff ht fun n hn => hdeclared hop n (List.mem_append_left _ (List.mem_append_left _ hn))
  case apply =>
    intro op d hop s hs a ha
    obtain ⟨S, -, rfl⟩ := (hr.states s).mp hs
    rw [h.holds_apply_iff ht (hd hop) (hdeclared hop)]
    have hatoms := hknown d (List.mem_of_getElem? hop)
    have hadd := mem_map_iff_of_injOn hinj ha fun b hb =>
      hatoms b (List.mem_append_left _ (List.mem_append_right _ hb))
    have hdel := mem_map_iff_of_injOn hinj ha fun b hb => hatoms b (List.mem_append_right _ hb)
    exact or_congr hadd (and_congr_left' (not_congr hdel))
  case isGoal =>
    intro s hs
    obtain ⟨S, -, rfl⟩ := (hr.states s).mp hs
    have hgoals : goalAtoms calls = (goal.map name).map (names calls).idxOf := by
      conv_lhs => rw [← hcalls, goalAtoms_callsOf]
    rw [hr.isGoal, hgoals, ← List.forall_mem_map]
    exact h.subset_iff ht fun n hn => hnames ▸ mem_declared_iff.mpr (.inr (.inr hn))
  case initial =>
    intro a ha
    have hinitial : initialAtoms calls = (init.map name).map (names calls).idxOf := by
      conv_lhs => rw [← hcalls, initialAtoms_callsOf]
    have hmem : ∀ n ∈ init.map name, n ∈ names calls := fun n hn => hnames ▸ mem_declared_iff.mpr (.inr (.inl hn))
    rw [hr.initial, holding_inter_range, h.holds_holding_iff ht, hinitial, List.mem_toFinset,
      ← mem_map_iff_of_injOn hinj ha hinit]
    constructor
    · rintro ⟨hname, hidx⟩
      exact (mem_map_iff_of_injOn (injOn_idxOf (names calls)) hname hmem).mp hidx
    · intro hname
      exact ⟨hmem _ hname, List.mem_map_of_mem hname⟩

/-- There is a task for every description that mentions an atom and has no negative cost, if its atoms and its actions
can be numbered. -/
theorem exists_build_ofEntries_iff : (∃ t, (ofEntries entries init goal).build = .ok t) ↔
    declared entries init goal ≠ [] ∧ (∀ d ∈ entries.filterMap Entry.deed?, 0 ≤ d.cost) ∧
      (declared entries init goal).length ≤ Draft.countLimit ∧
      (entries.filterMap Entry.deed?).length ≤ Draft.countLimit := by
  rw [ofEntries_eq_ofCalls]
  generalize hcalls : callsOf _ entries init goal = calls
  have hnames : names calls = declared entries init goal := hcalls ▸ names_callsOf ..
  rw [← hnames] at hcalls
  have hactions : actions calls = (entries.filterMap Entry.deed?).map (Deed.action (names calls)) := by
    conv_lhs => rw [← hcalls, actions_callsOf]
  have hgoals : goalAtoms calls = goal.map (names calls).idxOf := by
    conv_lhs => rw [← hcalls, goalAtoms_callsOf]
  have hknown : ∀ d ∈ entries.filterMap Entry.deed?, ∀ x ∈ (d.action (names calls)).pre ++
      (d.action (names calls)).add ++ (d.action (names calls)).del, x < (names calls).length := by
    intro d hd x hx
    have hplaces : x ∈ d.atoms.map (names calls).idxOf := by
      rwa [Deed.atoms, List.map_append, List.map_append]
    obtain ⟨name, hname, rfl⟩ := List.mem_map.mp hplaces
    exact List.idxOf_lt_length_of_mem (hnames ▸ mem_declared_of_deed hd hname)
  have hsound : Sound calls ↔ names calls ≠ [] ∧ ∀ d ∈ entries.filterMap Entry.deed?, 0 ≤ d.cost := by
    refine ⟨fun hsound => ⟨hsound.declared, fun d hd => ?_⟩, fun ⟨hne, hcost⟩ => ⟨hne, ?_, ?_, ?_⟩⟩
    · exact hsound.cost _ (hactions ▸ List.mem_map_of_mem hd)
    · exact hactions ▸ List.forall_mem_map.mpr hcost
    · exact hactions ▸ List.forall_mem_map.mpr hknown
    · rw [hgoals]
      refine List.forall_mem_map.mpr fun name hname => List.idxOf_lt_length_of_mem ?_
      exact hnames ▸ mem_declared_iff.mpr (.inr (.inr hname))
  rw [(follows_ofCalls calls).exists_build_iff, ← hnames, hactions, List.length_map, hsound, and_assoc]

/-- No more names are declared than there are atoms. -/
theorem length_declared_le {α : Type} {name : α → String} {deeds : List (Deed α)} {init goal atoms : List α}
    (hdeeds : entries.filterMap Entry.deed? = deeds.map (Deed.map name))
    (hnames : ∀ n, Entry.atom n ∈ entries → n ∈ atoms.map name) (hknown : ∀ d ∈ deeds, ∀ a ∈ d.atoms, a ∈ atoms)
    (hinit : ∀ a ∈ init, a ∈ atoms) (hgoal : ∀ a ∈ goal, a ∈ atoms) :
    (declared entries (init.map name) (goal.map name)).length ≤ atoms.length := by
  have hsub : declared entries (init.map name) (goal.map name) ⊆ atoms.map name := by
    intro n hn
    rcases mem_declared_iff.mp hn with ⟨e, he, hn⟩ | hn | hn
    · cases e with
      | atom n =>
        obtain rfl := List.mem_singleton.mp hn
        exact hnames _ he
      | action action cost pre add del =>
        have hd : ⟨action, cost, pre, add, del⟩ ∈ entries.filterMap Entry.deed? := List.mem_filterMap.mpr ⟨_, he, rfl⟩
        rw [hdeeds] at hd
        obtain ⟨d, hd, heq⟩ := List.mem_map.mp hd
        have hmap : pre ++ add ++ del = d.atoms.map name := by
          rw [Deed.atoms, List.map_append, List.map_append]
          exact (congrArg Deed.atoms heq).symm
        exact List.map_subset name (hknown d hd) (hmap ▸ hn)
    · exact List.map_subset name hinit hn
    · exact List.map_subset name hgoal hn
  have hnd : (declared entries (init.map name) (goal.map name)).Nodup := nodup_eraseDups _
  exact (hnd.subperm hsub).length_le.trans (List.length_map name).le

/-- There is a task for some deeds at no negative cost that start somewhere, if the atoms and the deeds can be
numbered. -/
theorem exists_build {α : Type} {name : α → String} {deeds : List (Deed α)} {init goal atoms : List α}
    (hdeeds : entries.filterMap Entry.deed? = deeds.map (Deed.map name))
    (hnames : ∀ n, Entry.atom n ∈ entries → n ∈ atoms.map name) (hknown : ∀ d ∈ deeds, ∀ a ∈ d.atoms, a ∈ atoms)
    (hinit : ∀ a ∈ init, a ∈ atoms) (hgoal : ∀ a ∈ goal, a ∈ atoms) (hne : init ≠ []) (hcost : ∀ d ∈ deeds, 0 ≤ d.cost)
    (hatoms : atoms.length ≤ Draft.countLimit) (hcount : deeds.length ≤ Draft.countLimit) :
    ∃ t, (ofEntries entries (init.map name) (goal.map name)).build = .ok t := by
  refine exists_build_ofEntries_iff.mpr ⟨?_, ?_, (length_declared_le hdeeds hnames hknown hinit hgoal).trans hatoms, ?_⟩
  · obtain ⟨a, ha⟩ := List.exists_mem_of_ne_nil _ hne
    exact List.ne_nil_of_mem (mem_declared_iff.mpr (.inr (.inl (List.mem_map_of_mem ha))))
  · exact hdeeds ▸ List.forall_mem_map.mpr hcost
  · rwa [hdeeds, List.length_map]

end Semantics

section Enacts

variable {α : Type} {name : α → String} {known : Set α} {deeds : List (Deed α)} {init goal : List α} {op : Nat}

namespace Enacts

theorem mem_applicable_iff (h : Enacts t name known deeds init goal) (hs : t.IsState s) :
    op ∈ t.applicable s ↔ ∃ d, deeds[op]? = some d ∧ ∀ a ∈ d.pre, t.Holds s (name a) := by
  rw [Task.mem_applicable_iff, h.size]
  constructor
  · rintro ⟨hlt, happ⟩
    have hd := List.getElem?_eq_getElem hlt
    exact ⟨_, hd, (h.applicable hd hs).mp happ⟩
  · rintro ⟨d, hd, hpre⟩
    exact ⟨(List.getElem?_eq_some_iff.mp hd).1, (h.applicable hd hs).mpr hpre⟩

end Enacts

end Enacts

end Strips

end RankedPlans
