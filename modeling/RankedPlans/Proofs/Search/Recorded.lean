import RankedPlans.Proofs.Cost
import RankedPlans.Proofs.Graph.Walk
import RankedPlans.Proofs.Search.Basic
import RankedPlans.Proofs.Task.Execution

/-! What the recorded graph says. Every edge stands for an operator that is applicable in the state of its
source, or leads from a goal to the sink, and no two edges say the same. This holds after every step,
whatever the heuristic answers. -/

namespace RankedPlans.Search

variable {c : SearchSetting} {s s' s'' : Search} {v : Nat} {x : State} {cost : Int}

/-- What an edge stands for. -/
def Meant (c : SearchSetting) (s : Search) (edge : Edge) : Prop :=
  ∃ x, s.stateOf? edge.source = some x ∧
    match edge.label with
    | .operator op => op ∈ c.task.applicable x ∧ edge.cost = (c.task.operator op).cost ∧
        s.stateOf? edge.target = some (c.canonical (c.task.apply x op)).1
    | .goal => c.task.isGoal x = true ∧ edge.cost = 0 ∧ edge.target = sink

/-- A sound record. -/
structure Recorded (c : SearchSetting) (s : Search) : Prop where
  size_eq : s.nodes.size = s.table.size + 1
  root_state : s.stateOf? root = some (c.canonical c.task.initial).1
  meant : ∀ {e : Nat} {edge : Edge}, s.edges[e]? = some edge → Meant c s edge
  expanded : ∀ {e : Nat} {edge : Edge}, s.edges[e]? = some edge →
    (s.node edge.source).expanded = true
  unique : ∀ {e e' : Nat} {edge edge' : Edge}, s.edges[e]? = some edge →
    s.edges[e']? = some edge' → edge.source = edge'.source → edge.label = edge'.label → e = e'
  reached : ∀ {v : Nat} {x : State}, s.stateOf? v = some x → ∃ es, s.graph.Walk root es v

/-- The later of two records holds all that the earlier one does. -/
structure Grows (s s' : Search) : Prop where
  state : ∀ {v : Nat} {x : State}, s.stateOf? v = some x → s'.stateOf? v = some x
  size : s.nodes.size ≤ s'.nodes.size
  edge : ∀ {e : Nat} {edge : Edge}, s.edges[e]? = some edge → s'.edges[e]? = some edge
  expanded : ∀ {v : Nat}, (s.node v).expanded = true → (s'.node v).expanded = true
  seen : ∀ {v : Nat}, (s.node v).status ≠ .unseen → (s'.node v).status ≠ .unseen

theorem Grows.refl (s : Search) : Grows s s := ⟨id, Nat.le_refl _, id, id, id⟩

theorem Grows.trans (h : Grows s s') (h' : Grows s' s'') : Grows s s'' :=
  ⟨fun hx => h'.state (h.state hx), Nat.le_trans h.size h'.size, fun he => h'.edge (h.edge he),
    fun hv => h'.expanded (h.expanded hv), fun hv => h'.seen (h.seen hv)⟩

theorem Meant.grows {edge : Edge} (h : Meant c s edge) (hg : Grows s s') : Meant c s' edge := by
  obtain ⟨x, hx, hlabel⟩ := h
  refine ⟨x, hg.state hx, ?_⟩
  split at hlabel
  · exact ⟨hlabel.1, hlabel.2.1, hg.state hlabel.2.2⟩
  · exact hlabel

/-- The same states and edges, with other costs and another open list. -/
structure SameRecord (s s' : Search) : Prop where
  table : s'.table = s.table
  edges : s'.edges = s.edges
  size : s'.nodes.size = s.nodes.size
  expanded : ∀ {v : Nat}, (s.node v).expanded = true → (s'.node v).expanded = true
  seen : ∀ {v : Nat}, (s.node v).status ≠ .unseen → (s'.node v).status ≠ .unseen

namespace SameRecord

theorem refl (s : Search) : SameRecord s s := ⟨rfl, rfl, rfl, id, id⟩

theorem trans (h : SameRecord s s') (h' : SameRecord s' s'') : SameRecord s s'' :=
  ⟨h'.table.trans h.table, h'.edges.trans h.edges, h'.size.trans h.size,
    fun hv => h'.expanded (h.expanded hv), fun hv => h'.seen (h.seen hv)⟩

theorem stateOf? (h : SameRecord s s') (v : Nat) : s'.stateOf? v = s.stateOf? v := by
  unfold Search.stateOf?
  rw [h.table]

theorem grows (h : SameRecord s s') : Grows s s' :=
  ⟨fun hx => (h.stateOf? _).trans hx, Nat.le_of_eq h.size.symm, fun he => h.edges ▸ he, h.expanded,
    h.seen⟩

theorem recorded (h : SameRecord s s') (hs : Recorded c s) : Recorded c s' where
  size_eq := by rw [h.size, h.table, hs.size_eq]
  root_state := h.grows.state hs.root_state
  meant he := (hs.meant (h.edges ▸ he)).grows h.grows
  expanded he := h.expanded (hs.expanded (h.edges ▸ he))
  unique he he' := hs.unique (h.edges ▸ he) (h.edges ▸ he')
  reached hx := by
    obtain ⟨es, hes⟩ := hs.reached (h.stateOf? _ ▸ hx)
    exact ⟨es, (hes.mono h.grows.edge).1⟩

/-- A node changes, but stays expanded and seen if it was. -/
theorem setNode {n : SearchNode} (hn : (s.node v).expanded = true → n.expanded = true)
    (hseen : (s.node v).status ≠ .unseen → n.status ≠ .unseen) (frontier : OpenList) (k : Statistics) :
    SameRecord s ⟨s.table, s.nodes.setIfInBounds v n, s.edges, frontier, k⟩ := by
  refine ⟨rfl, rfl, Array.size_setIfInBounds, fun {w} hw => ?_, fun {w} hw => ?_⟩
  · unfold node at *
    rw [getD_setIfInBounds]
    split
    · rename_i h
      exact hn (h.1 ▸ hw)
    · exact hw
  · unfold node at *
    rw [getD_setIfInBounds]
    split
    · rename_i h
      exact hseen (h.1 ▸ hw)
    · exact hw

theorem open? (c : SearchSetting) (s : Search) (v : Nat) (cost : Int) (via : Option Nat) :
    SameRecord s (s.open? c v cost via).1 := by
  rcases open?_cases c s v cost via with ⟨k, h, heq, -⟩ | ⟨k, x, heq, -⟩ | ⟨k, fault, -, -, heq, -⟩
  · rw [heq]
    refine setNode (s := s) (v := v) ?_ ?_ _ _
    · exact id
    · exact fun _ => nofun
  · rw [heq]
    refine setNode (s := s) (v := v) ?_ ?_ _ _
    · exact id
    · exact fun _ => nofun
  · rw [heq]
    exact ⟨rfl, rfl, rfl, id, id⟩

theorem relax (c : SearchSetting) (s : Search) (v : Nat) (cost : Int) (via : Nat) :
    SameRecord s (s.relax c v cost via).1 := by
  rcases relax_cases c s v cost via with ⟨heq, -⟩ | ⟨k, heq, -⟩ | ⟨-, heq⟩
  · rw [heq]
    exact .refl s
  · rw [heq]
    refine setNode (s := s) (v := v) ?_ ?_ _ _
    · exact id
    · exact fun _ => nofun
  · rw [heq]
    exact .open? c s v cost _

theorem relaxAgain (c : SearchSetting) (cost : Int) (es : List Nat) (s : Search) :
    SameRecord s (relaxAgain c cost es s).1 := by
  induction es generalizing s with
  | nil => exact .refl s
  | cons e es ih =>
    unfold Search.relaxAgain
    cases he : s.edges[e]? with
    | none => exact ih s
    | some edge =>
      simp only
      have h := relax c s edge.target (Cost.add cost edge.cost) e
      rcases hr : s.relax c edge.target (Cost.add cost edge.cost) e with ⟨s', fault⟩
      simp only [hr] at h ⊢
      cases fault with
      | none => exact h.trans (ih s')
      | some fault => exact h

end SameRecord

theorem lt_nodes_of_stateOf? (hsize : s.nodes.size = s.table.size + 1)
    (h : s.stateOf? v = some x) : v < s.nodes.size := by
  obtain ⟨i, rfl, hi⟩ := stateOf?_eq_some_iff.mp h
  have := Numbering.lt_size_of_item? hi
  unfold nodeOf root
  split <;> omega

theorem exists_stateOf? (hsize : s.nodes.size = s.table.size + 1) (hv : v < s.nodes.size)
    (hne : v ≠ sink) (hroot : s.stateOf? root = some x) : ∃ y, s.stateOf? v = some y := by
  by_cases h : v = root
  · exact ⟨x, h ▸ hroot⟩
  · unfold Search.stateOf?
    rw [if_neg hne, if_neg h]
    simp only [root, sink] at h hne
    exact Numbering.exists_item? (by omega)

theorem lt_nodes_of_status (h : (s.node v).status ≠ .unseen) : v < s.nodes.size := by
  refine Nat.lt_of_not_le fun hle => h ?_
  rw [node, Array.getD_eq_getD_getElem?, Array.getElem?_eq_none hle]
  rfl

/-- What registering a state gives. -/
theorem intern_spec (hsize : s.nodes.size = s.table.size + 1) (hroot : 0 < s.table.size)
    (x : State) : (s.intern x).1.stateOf? (s.intern x).2 = some x ∧ Grows s (s.intern x).1 ∧
      (s.intern x).1.nodes.size = (s.intern x).1.table.size + 1 ∧
      (s.intern x).1.edges = s.edges ∧ (s.intern x).1.frontier = s.frontier ∧
      (∀ w, (s.intern x).1.node w = s.node w) ∧
      ∀ {w y}, (s.intern x).1.stateOf? w = some y → s.stateOf? w = some y ∨ w = (s.intern x).2 := by
  obtain ⟨table, nodes, edges, frontier, statistics⟩ := s
  simp only at hsize hroot
  unfold intern
  rcases Numbering.insert_cases table x with ⟨i, hi, heq⟩ | ⟨table', heq, hsize', hitem⟩
  · simp only [heq]
    refine ⟨?_, .refl _, hsize, trivial, trivial, fun w => trivial, fun hw => .inl hw⟩
    rw [stateOf?_nodeOf]
    exact hi
  · simp only [heq]
    have hnode : ∀ w, (nodes.push ({} : SearchNode)).getD w default = nodes.getD w default := by
      intro w
      rw [Array.getD_eq_getD_getElem?, Array.getD_eq_getD_getElem?, Array.getElem?_push]
      split
      · rename_i hw
        rw [Array.getElem?_eq_none (by omega)]
        rfl
      · rfl
    refine ⟨?_, ⟨fun {v y} hv => ?_, by simp, id, fun {w} hw => ?_, fun {w} hw => ?_⟩, ?_,
      trivial, trivial, hnode, fun {w y} hw => ?_⟩
    · rw [stateOf?_nodeOf]
      exact (hitem _ _).mpr (.inr ⟨rfl, rfl⟩)
    · obtain ⟨i, rfl, hi⟩ := stateOf?_eq_some_iff.mp hv
      rw [stateOf?_nodeOf]
      exact (hitem i y).mpr (.inl hi)
    · rw [node, hnode]
      exact hw
    · rw [node, hnode]
      exact hw
    · simp [hsize, hsize']
    · obtain ⟨i, rfl, hi⟩ := stateOf?_eq_some_iff.mp hw
      rw [stateOf?_nodeOf]
      exact ((hitem i y).mp hi).imp id fun hnew => congrArg nodeOf hnew.1

theorem edges_push {edge edge' : Edge} {e : Nat} (h : s'.edges = s.edges.push edge) :
    s'.edges[e]? = some edge' ↔ s.edges[e]? = some edge' ∨ e = s.edges.size ∧ edge' = edge := by
  rw [h, Array.getElem?_push]
  split
  · rename_i h
    subst h
    simp [eq_comm]
  · rename_i h
    simp [h]

theorem grows_record (s : Search) (edge : Edge) : Grows s (s.record edge).1 :=
  ⟨id, Nat.le_refl _, fun he => (edges_push rfl).mpr (.inl he), id, id⟩

/-- Whether an edge with this label leads out of a node. -/
def HasEdge (s : Search) (v : Nat) (label : EdgeLabel) : Prop :=
  ∃ (e : Nat) (edge : Edge), s.edges[e]? = some edge ∧ edge.source = v ∧ edge.label = label

theorem HasEdge.grows {label : EdgeLabel} (h : s.HasEdge v label) (hg : Grows s s') :
    s'.HasEdge v label := by
  obtain ⟨e, edge, he, hedge⟩ := h
  exact ⟨e, edge, hg.edge he, hedge⟩

/-- One more edge, which says something new and leads to the only state that may be new. -/
theorem Recorded.extend {edge : Edge} (h : Recorded c s) (hg : Grows s s')
    (hsize : s'.nodes.size = s'.table.size + 1) (hedges : s'.edges = s.edges.push edge)
    (hm : Meant c s' edge) (hsource : s.stateOf? edge.source = some x)
    (hstates : ∀ {v y}, s'.stateOf? v = some y → s.stateOf? v = some y ∨ v = edge.target)
    (hexp : (s'.node edge.source).expanded = true)
    (hnew : ¬s.HasEdge edge.source edge.label) : Recorded c s' where
  size_eq := hsize
  root_state := hg.state h.root_state
  meant he := by
    rcases (edges_push hedges).mp he with he | ⟨-, rfl⟩
    · exact (h.meant he).grows hg
    · exact hm
  expanded he := by
    rcases (edges_push hedges).mp he with he | ⟨-, rfl⟩
    · exact hg.expanded (h.expanded he)
    · exact hexp
  unique he he' heq hlabel := by
    rcases (edges_push hedges).mp he with old | ⟨rfl, rfl⟩
    · rcases (edges_push hedges).mp he' with old' | ⟨rfl, rfl⟩
      · exact h.unique old old' heq hlabel
      · exact absurd ⟨_, _, old, heq, hlabel⟩ hnew
    · rcases (edges_push hedges).mp he' with old' | ⟨rfl, -⟩
      · exact absurd ⟨_, _, old', heq.symm, hlabel.symm⟩ hnew
      · rfl
  reached hy := by
    have hmono : ∀ {e edge'}, s.graph.edges[e]? = some edge' → s'.graph.edges[e]? = some edge' :=
      fun he => hg.edge he
    rcases hstates hy with hy | rfl
    · obtain ⟨es, hes⟩ := h.reached hy
      exact ⟨es, (hes.mono hmono).1⟩
    · obtain ⟨es, hes⟩ := h.reached hsource
      exact ⟨_, Graph.walk_concat_iff.mpr ⟨edge, (edges_push hedges).mpr (.inr ⟨rfl, rfl⟩), rfl,
        (hes.mono hmono).1⟩⟩

theorem Recorded.record (h : Recorded c s) (edge : Edge) (hm : Meant c s edge)
    (hexp : (s.node edge.source).expanded = true)
    (hnew : ¬s.HasEdge edge.source edge.label) : Recorded c (s.record edge).1 := by
  obtain ⟨x, hx, -⟩ := id hm
  exact h.extend (grows_record s edge) h.size_eq rfl (hm.grows (grows_record s edge)) hx .inl hexp hnew

theorem Recorded.table_pos (h : Recorded c s) : 0 < s.table.size := by
  obtain ⟨i, -, hi⟩ := stateOf?_eq_some_iff.mp h.root_state
  exact Nat.lt_of_le_of_lt (Nat.zero_le i) (Numbering.lt_size_of_item? hi)

theorem Recorded.cost_nonneg (h : Recorded c s) {e : Nat} {edge : Edge}
    (he : s.edges[e]? = some edge) : 0 ≤ edge.cost := by
  obtain ⟨x, -, hlabel⟩ := h.meant he
  split at hlabel
  · rw [hlabel.2.1]
    exact c.task.operator_cost_nonneg _
  · omega

theorem Recorded.target_lt (h : Recorded c s) {e : Nat} {edge : Edge}
    (he : s.edges[e]? = some edge) : edge.target < s.nodes.size := by
  obtain ⟨x, -, hlabel⟩ := h.meant he
  split at hlabel
  · exact lt_nodes_of_stateOf? h.size_eq hlabel.2.2
  · rw [hlabel.2.2, h.size_eq]
    have := h.table_pos
    simp only [sink]
    omega

/-- No edge leads out of the sink. -/
theorem Recorded.walk_sink (h : Recorded c s) {es : List Nat} (hes : s.graph.Walk sink es v) : es = [] := by
  cases es with
  | nil => rfl
  | cons e es =>
    obtain ⟨edge, he, hsource, -⟩ := Graph.walk_cons_iff.mp hes
    obtain ⟨x, hx, -⟩ := h.meant he
    exact absurd hsource (ne_sink_of_stateOf? hx)

/-- Registers and records what an operator leads to; gives its node and the edge. -/
def successor (c : SearchSetting) (v : Nat) (state : State) (s : Search) (op : Nat) :
    Search × Nat × Nat :=
  let s := s.count fun k => { k with generated := k.generated + 1 }
  let (successor, trace) := c.canonical (c.task.apply state op)
  let s := if trace.isEmpty then s else s.count fun k => { k with pruned := k.pruned + 1 }
  let (s, target) := s.intern successor
  let (s, e) := s.record ⟨v, target, .operator op, (c.task.operator op).cost⟩
  (s, target, e)

theorem generate_cons_eq (c : SearchSetting) (v : Nat) (cost : Int) (state : State) (op : Nat)
    (rest : List Nat) (s : Search) (goal : Bool) :
    generate c v cost state (op :: rest) s goal =
      match (successor c v state s op).1.relax c (successor c v state s op).2.1
        (Cost.add cost (c.task.operator op).cost) (successor c v state s op).2.2 with
      | (after, some fault) => (after,
          goal || (successor c v state s op).1.isGoalNode c (successor c v state s op).2.1, some fault)
      | (after, none) => generate c v cost state rest after
          (goal || (successor c v state s op).1.isGoalNode c (successor c v state s op).2.1) :=
  rfl

theorem generate_cons (c : SearchSetting) (v : Nat) (cost : Int) (state : State) (op : Nat)
    (rest : List Nat) (s : Search) (goal : Bool) : ∃ goal',
      generate c v cost state (op :: rest) s goal =
        match (successor c v state s op).1.relax c (successor c v state s op).2.1
          (Cost.add cost (c.task.operator op).cost) (successor c v state s op).2.2 with
        | (s, some fault) => (s, goal', some fault)
        | (s, none) => generate c v cost state rest s goal' :=
  ⟨_, generate_cons_eq c v cost state op rest s goal⟩

/-- What holds of a node while the edges of some operators out of it are to be recorded. -/
structure Generating (c : SearchSetting) (v : Nat) (x : State) (ops : List Nat) (s : Search) :
    Prop where
  recorded : Recorded c s
  state : s.stateOf? v = some x
  expanded : (s.node v).expanded = true
  applicable : ∀ op ∈ ops, op ∈ c.task.applicable x
  nodup : ops.Nodup
  new : ∀ op ∈ ops, ¬s.HasEdge v (.operator op)

/-- What the edge of an operator adds. -/
theorem Generating.successor {op : Nat} {ops : List Nat} (h : Generating c v x (op :: ops) s) :
    let r := successor c v x s op
    Recorded c r.1 ∧ Grows s r.1 ∧ r.1.frontier = s.frontier ∧ (∀ w, r.1.node w = s.node w) ∧
      ∀ e edge, r.1.edges[e]? = some edge ↔ s.edges[e]? = some edge ∨
        e = r.2.2 ∧ edge = ⟨v, r.2.1, .operator op, (c.task.operator op).cost⟩ := by
  have hop := h.applicable op (List.mem_cons_self ..)
  have hnew := h.new op (List.mem_cons_self ..)
  unfold Search.successor
  rcases hcanon : c.canonical (c.task.apply x op) with ⟨y, trace⟩
  obtain ⟨k, hk⟩ : ∃ k, (if trace.isEmpty then
      s.count fun k => { k with generated := k.generated + 1 }
    else (s.count fun k => { k with generated := k.generated + 1 }).count fun k =>
      { k with pruned := k.pruned + 1 }) = { s with statistics := k } := by
    split
    · exact ⟨_, rfl⟩
    · exact ⟨_, rfl⟩
  simp only [hk]
  have hk : SameRecord s { s with statistics := k } := ⟨rfl, rfl, rfl, id, id⟩
  have hs := hk.recorded h.recorded
  obtain ⟨hy, hg, hsize, hedges, hfrontier, hnode, hstates⟩ := intern_spec hs.size_eq hs.table_pos y
  revert hy hg hsize hedges hfrontier hnode hstates
  rcases ({ s with statistics := k } : Search).intern y with ⟨s', target⟩
  intro hy hg hsize hedges hfrontier hnode hstates
  have hg' := (hk.grows.trans hg).trans
    (grows_record s' ⟨v, target, .operator op, (c.task.operator op).cost⟩)
  have hpush : (s'.record ⟨v, target, .operator op, (c.task.operator op).cost⟩).1.edges =
      s.edges.push ⟨v, target, .operator op, (c.task.operator op).cost⟩ := by
    rw [Search.record, show s'.edges = s.edges from hedges]
  refine ⟨h.recorded.extend hg' hsize hpush ⟨x, hg'.state h.state, hop, rfl, ?_⟩ h.state hstates
    ((hnode v).symm ▸ h.expanded) hnew, hg', hfrontier, hnode, fun e edge => ?_⟩
  · rw [hcanon]
    exact (grows_record s' _).state hy
  · rw [edges_push hpush]
    simp only [Search.record, show s'.edges = s.edges from hedges]

/-- Every operator and, for a goal, the sink has its edge out of a node. -/
structure Complete (c : SearchSetting) (s : Search) (v : Nat) (x : State) : Prop where
  operator : ∀ op ∈ c.task.applicable x, s.HasEdge v (.operator op)
  goal : c.task.isGoal x = true → s.HasEdge v .goal

theorem Complete.grows (h : Complete c s v x) (hg : Grows s s') : Complete c s' v x :=
  ⟨fun op hop => (h.operator op hop).grows hg, fun hx => (h.goal hx).grows hg⟩

/-- One operator less is to be recorded once its edge was tried. -/
theorem Generating.step {op : Nat} {ops : List Nat} (h : Generating c v x (op :: ops) s)
    (cost : Int) :
    let r := Search.successor c v x s op
    let s' := (r.1.relax c r.2.1 cost r.2.2).1
    Generating c v x ops s' ∧ Grows s s' ∧ s'.HasEdge v (.operator op) ∧
      (s'.HasEdge v .goal → s.HasEdge v .goal) := by
  obtain ⟨hs, hg, -, -, hedge⟩ := h.successor
  generalize Search.successor c v x s op = r at hs hg hedge
  obtain ⟨s₁, target, e⟩ := r
  have hsame := SameRecord.relax c s₁ target cost e
  have hgrows := hg.trans hsame.grows
  have hlabels : ∀ {label}, (s₁.relax c target cost e).1.HasEdge v label →
      s.HasEdge v label ∨ label = .operator op := by
    rintro label ⟨e', edge, he, hv, rfl⟩
    rw [hsame.edges] at he
    rcases (hedge e' edge).mp he with he | ⟨-, rfl⟩
    · exact .inl ⟨e', edge, he, hv, rfl⟩
    · exact .inr rfl
  obtain ⟨hop, hnd⟩ := List.nodup_cons.mp h.nodup
  refine ⟨⟨hsame.recorded hs, hgrows.state h.state, hgrows.expanded h.expanded,
    fun op' hop' => h.applicable op' (List.mem_cons_of_mem _ hop'), hnd, fun op' hop' hv => ?_⟩,
    hgrows, ⟨e, _, hsame.edges ▸ (hedge _ _).mpr (.inr ⟨rfl, rfl⟩), rfl, rfl⟩,
    fun hv => (hlabels hv).resolve_right nofun⟩
  rcases hlabels hv with hv | heq
  · exact h.new op' (List.mem_cons_of_mem _ hop') hv
  · cases heq
    exact hop hop'

/-- The edges of some operators are sound, and all are there unless the heuristic failed. -/
theorem Generating.generate {ops : List Nat} (h : Generating c v x ops s) (cost : Int)
    (goal : Bool) :
    let r := generate c v cost x ops s goal
    Recorded c r.1 ∧ Grows s r.1 ∧ (r.1.HasEdge v .goal → s.HasEdge v .goal) ∧
      (r.2.2 = none → ∀ op ∈ ops, r.1.HasEdge v (.operator op)) := by
  induction ops generalizing s goal with
  | nil => exact ⟨h.recorded, .refl s, id, fun _ op hop => absurd hop List.not_mem_nil⟩
  | cons op ops ih =>
    obtain ⟨goal', heq⟩ := generate_cons c v cost x op ops s goal
    obtain ⟨hs, hg, hop, hgoal⟩ := h.step (Cost.add cost (c.task.operator op).cost)
    rw [heq]
    rcases hr : relax c _ _ (Cost.add cost (c.task.operator op).cost) _ with ⟨s', fault⟩
    rw [hr] at hs hg hop hgoal
    cases fault with
    | some fault => exact ⟨hs.recorded, hg, hgoal, fun hnone => by cases hnone⟩
    | none =>
      obtain ⟨hs', hg', hgoal', hall⟩ := ih hs goal'
      refine ⟨hs', hg.trans hg', fun hv => hgoal (hgoal' hv), fun hnone op' hop' => ?_⟩
      rcases List.mem_cons.mp hop' with rfl | hop'
      · exact hop.grows hg'
      · exact hall hnone op' hop'

theorem recordGoal_recorded (h : Recorded c s) (hx : s.stateOf? v = some x)
    (hexp : (s.node v).expanded = true) (hgoal : c.task.isGoal x = true)
    (hnew : ¬s.HasEdge v .goal) (cost : Int) : Recorded c (recordGoal c v cost s).1 ∧
      Grows s (recordGoal c v cost s).1 ∧ (recordGoal c v cost s).1.HasEdge v .goal := by
  have hs := h.record ⟨v, sink, .goal, 0⟩ ⟨x, hx, hgoal, rfl, rfl⟩ hexp hnew
  have hsame := SameRecord.relax c (s.record ⟨v, sink, .goal, 0⟩).1 sink cost s.edges.size
  have hedge : HasEdge (s.record ⟨v, sink, .goal, 0⟩).1 v .goal :=
    ⟨_, _, (edges_push rfl).mpr (.inr ⟨rfl, rfl⟩), rfl, rfl⟩
  exact ⟨hsame.recorded hs, (grows_record s _).trans hsame.grows, hedge.grows hsame.grows⟩

/-- A node whose edges are about to be recorded. -/
def markExpanded (s : Search) (v : Nat) : Search :=
  { s with nodes := s.nodes.setIfInBounds v { s.node v with expanded := true } }

theorem markExpanded_spec (hv : v < s.nodes.size) :
    SameRecord s (s.markExpanded v) ∧ ((s.markExpanded v).node v).expanded = true := by
  constructor
  · refine SameRecord.setNode (s := s) (v := v) ?_ ?_ _ _
    · exact fun _ => rfl
    · exact id
  · rw [markExpanded, node, getD_setIfInBounds, if_pos ⟨rfl, hv⟩]

/-- A node that was not expanded has no edges. -/
theorem Recorded.not_hasEdge (h : Recorded c s) (hexp : ¬(s.node v).expanded = true)
    (label : EdgeLabel) : ¬s.HasEdge v label := by
  rintro ⟨e, edge, he, rfl, -⟩
  exact hexp (h.expanded he)

theorem Recorded.generating (h : Recorded c s) (hexp : ¬(s.node v).expanded = true)
    (hx : s.stateOf? v = some x) :
    Generating c v x (c.task.applicable x) (s.markExpanded v) := by
  obtain ⟨hmark, hexp'⟩ := markExpanded_spec (lt_nodes_of_stateOf? h.size_eq hx)
  exact ⟨hmark.recorded h, hmark.grows.state hx, hexp', fun op hop => hop, c.task.nodup_applicable x,
    fun op _ => h.not_hasEdge hexp _⟩

theorem expand_stateless (hexp : ¬(s.node v).expanded = true) (hx : s.stateOf? v = none) :
    s.expand c v cost = (s, .expanded false) := by
  unfold expand
  rw [if_neg hexp, hx]

theorem expand_new (hexp : ¬(s.node v).expanded = true) (hx : s.stateOf? v = some x) :
    s.expand c v cost =
      match generate c v cost x (c.task.applicable x) (s.markExpanded v) false with
      | (s, _, some fault) => (s, .failed fault)
      | (s, goal, none) =>
        if c.task.isGoal x then
          match recordGoal c v cost s with
          | (s, some fault) => (s, .failed fault)
          | (s, none) => (s, .expanded true)
        else (s, .expanded goal) := by
  unfold expand
  rw [if_neg hexp, hx]
  rfl

/-- A node that is expanded for the first time tries the edges of its operators and, perhaps, one to the sink. -/
theorem expand_new_state (cost : Int) (hexp : ¬(s.node v).expanded = true) (hx : s.stateOf? v = some x) :
    (s.expand c v cost).1 =
      (generate c v cost x (c.task.applicable x) (s.markExpanded v) false).1 ∨
    (s.expand c v cost).1 = (recordGoal c v cost
      (generate c v cost x (c.task.applicable x) (s.markExpanded v) false).1).1 := by
  rw [expand_new hexp hx]
  rcases generate c v cost x (c.task.applicable x) (s.markExpanded v) false with ⟨s₁, goal, fault⟩
  cases fault with
  | some fault => exact .inl rfl
  | none =>
    simp only
    split
    · refine .inr ?_
      rcases recordGoal c v cost s₁ with ⟨s₂, fault⟩
      cases fault <;> rfl
    · exact .inl rfl

/-- Expanding a node for the first time records all edges out of it, unless the heuristic failed. -/
theorem expand_recorded (h : Recorded c s) (v : Nat) (cost : Int) :
    Recorded c (s.expand c v cost).1 ∧ Grows s (s.expand c v cost).1 ∧
      ((∀ fault, (s.expand c v cost).2 ≠ .failed fault) → (s.node v).expanded = false →
        ∀ x, s.stateOf? v = some x → ((s.expand c v cost).1.node v).expanded = true ∧
          Complete c (s.expand c v cost).1 v x) := by
  by_cases hexp : (s.node v).expanded = true
  · have hsame := SameRecord.relaxAgain c cost (s.graph.outgoing v) s
    unfold expand
    rw [if_pos hexp]
    rcases hr : relaxAgain c cost (s.graph.outgoing v) s with ⟨s', fault⟩
    rw [hr] at hsame
    cases fault <;> exact ⟨hsame.recorded h, hsame.grows, fun _ hno => by simp [hexp] at hno⟩
  · cases hx : s.stateOf? v with
    | none =>
      rw [expand_stateless hexp hx]
      exact ⟨h, .refl s, fun _ _ x hx' => by cases hx'⟩
    | some x =>
      have hmark := (markExpanded_spec (lt_nodes_of_stateOf? h.size_eq hx)).1
      have hgen := h.generating hexp hx
      have hno : ∀ label, ¬(s.markExpanded v).HasEdge v label := h.not_hasEdge hexp
      rw [expand_new hexp hx]
      generalize s.markExpanded v = s₁ at hmark hgen hno
      obtain ⟨hs₂, hg₂, hgoal, hops⟩ := hgen.generate cost false
      rcases hr : generate c v cost x (c.task.applicable x) s₁ false with ⟨s₂, goal, fault⟩
      rw [hr] at hs₂ hg₂ hgoal hops
      have hgrows := hmark.grows.trans hg₂
      cases fault with
      | some fault => exact ⟨hs₂, hgrows, fun hfault => absurd rfl (hfault fault)⟩
      | none =>
        by_cases hx₂ : c.task.isGoal x = true
        · simp only [hx₂, if_true]
          obtain ⟨hs₃, hg₃, hedge⟩ := recordGoal_recorded hs₂ (hg₂.state hgen.state)
            (hg₂.expanded hgen.expanded) hx₂ (fun hv => hno _ (hgoal hv)) cost
          rcases hr₃ : recordGoal c v cost s₂ with ⟨s₃, fault⟩
          rw [hr₃] at hs₃ hg₃ hedge
          cases fault with
          | some fault =>
            exact ⟨hs₃, hgrows.trans hg₃, fun hfault => absurd rfl (hfault fault)⟩
          | none =>
            refine ⟨hs₃, hgrows.trans hg₃, fun _ _ y hy => ?_⟩
            cases hy
            exact ⟨hg₃.expanded (hg₂.expanded hgen.expanded),
              fun op hop => (hops rfl op hop).grows hg₃, fun _ => hedge⟩
        · simp only [if_neg hx₂]
          refine ⟨hs₂, hgrows, fun _ _ y hy => ?_⟩
          cases hy
          exact ⟨hg₂.expanded hgen.expanded, hops rfl, fun hgoal => absurd hgoal hx₂⟩

/-- What depends on nodes and the open list only and stays true when a node is marked and when edges are tried at
costs that are not below a bound. -/
structure Kept (c : SearchSetting) (least : Int) (p : Search → Prop) : Prop where
  same : ∀ {s s' : Search}, (∀ w, s'.node w = s.node w) → s'.frontier = s.frontier → p s → p s'
  mark : ∀ {s : Search} (v : Nat), p s → p (s.markExpanded v)
  relax : ∀ {s : Search} {v : Nat} {cost : Int} (via : Nat), v < s.nodes.size → least ≤ cost →
    cost ≤ Cost.top → p s → p (s.relax c v cost via).1

namespace Kept

variable {least : Int} {p : Search → Prop} (hk : Kept c least p) (hleast : least ≤ cost) (htop : cost ≤ Cost.top)
include hk hleast htop

theorem relaxAgain (h : Recorded c s) (es : List Nat) (hp : p s) : p (relaxAgain c cost es s).1 := by
  induction es generalizing s with
  | nil => exact hp
  | cons e es ih =>
    unfold Search.relaxAgain
    cases he : s.edges[e]? with
    | none => exact ih h hp
    | some edge =>
      have hkept := hk.relax e (h.target_lt he)
        (Int.le_trans hleast (Cost.le_add htop (h.cost_nonneg he))) (Cost.add_le_top cost edge.cost) hp
      have hsame := SameRecord.relax c s edge.target (Cost.add cost edge.cost) e
      simp only
      rcases hr : s.relax c edge.target (Cost.add cost edge.cost) e with ⟨s', fault⟩
      rw [hr] at hkept hsame
      cases fault with
      | none => exact ih (hsame.recorded h) hkept
      | some fault => exact hkept

theorem generate {ops : List Nat} (h : Generating c v x ops s) (goal : Bool) (hp : p s) :
    p (generate c v cost x ops s goal).1 := by
  induction ops generalizing s goal with
  | nil => exact hp
  | cons op ops ih =>
    obtain ⟨goal', heq⟩ := generate_cons c v cost x op ops s goal
    obtain ⟨hnext, -⟩ := h.step (Cost.add cost (c.task.operator op).cost)
    obtain ⟨hrecorded, -, hfrontier, hnode, hedge⟩ := h.successor
    rw [heq]
    generalize successor c v x s op = r at hrecorded hfrontier hnode hedge hnext
    obtain ⟨s₁, target, e⟩ := r
    have htarget := hrecorded.target_lt ((hedge _ _).mpr (.inr ⟨rfl, rfl⟩))
    have hkept := hk.relax e htarget (Int.le_trans hleast (Cost.le_add htop (c.task.operator_cost_nonneg op)))
      (Cost.add_le_top _ _) (hk.same hnode hfrontier hp)
    rcases hr : s₁.relax c target (Cost.add cost (c.task.operator op).cost) e with ⟨s₂, fault⟩
    simp only [hr] at hkept hnext ⊢
    cases fault with
    | none => exact ih hnext goal' hkept
    | some fault => exact hkept

theorem recordGoal (h : Recorded c s) (v : Nat) (hp : p s) : p (recordGoal c v cost s).1 := by
  have hsink : sink < s.nodes.size := by
    rw [h.size_eq]
    exact Nat.succ_lt_succ h.table_pos
  have hrecord : p (s.record ⟨v, sink, .goal, 0⟩).1 := hk.same (s := s) (fun _ => rfl) rfl hp
  exact hk.relax _ hsink hleast htop hrecord

/-- Expanding a node tries edges at costs that are not below its own. -/
theorem expand (h : Recorded c s) (v : Nat) (hp : p s) : p (s.expand c v cost).1 := by
  by_cases hexp : (s.node v).expanded = true
  · have hkept := hk.relaxAgain hleast htop h (s.graph.outgoing v) hp
    unfold Search.expand
    rw [if_pos hexp]
    rcases hr : Search.relaxAgain c cost (s.graph.outgoing v) s with ⟨s', fault⟩
    rw [hr] at hkept
    cases fault <;> exact hkept
  · cases hx : s.stateOf? v with
    | none =>
      rw [expand_stateless hexp hx]
      exact hp
    | some x =>
      have hgen := h.generating hexp hx
      have hkept := hk.generate hleast htop hgen false (hk.mark v hp)
      rcases expand_new_state cost hexp hx with heq | heq
      · exact heq ▸ hkept
      · exact heq ▸ hk.recordGoal hleast htop (hgen.generate cost false).1 v hkept

end Kept

/-- A search before its root is met. -/
def seed (c : SearchSetting) : Search :=
  ⟨(Numbering.empty.insert (c.canonical c.task.initial).1).1, #[{}, {}], #[], {}, {}⟩

theorem seed_node (c : SearchSetting) (w : Nat) : (seed c).node w = {} := by
  match w with
  | 0 => rfl
  | 1 => rfl
  | w + 2 => rfl

theorem start_eq (c : SearchSetting) : start c =
    ((seed c).open? c root 0 none).2.elim (.ok ((seed c).open? c root 0 none).1) .error := by
  unfold start
  simp only [← show seed c = ⟨(Numbering.empty.insert (c.canonical c.task.initial).1).1,
    #[{}, {}], #[], {}, {}⟩ from rfl]
  rcases (seed c).open? c root 0 none with ⟨s', fault⟩
  cases fault <;> rfl

theorem start_eq_ok_iff : start c = .ok s ↔ (seed c).open? c root 0 none = (s, none) := by
  rw [start_eq]
  rcases (seed c).open? c root 0 none with ⟨s', fault⟩
  cases fault <;> simp

theorem start_eq_ok (h : ((seed c).open? c root 0 none).2 = none) :
    start c = .ok ((seed c).open? c root 0 none).1 :=
  start_eq_ok_iff.mpr (Prod.ext rfl h)

theorem seed_recorded (c : SearchSetting) : Recorded c (seed c) := by
  have hno : ∀ {e : Nat} {edge : Edge}, (seed c).edges[e]? ≠ some edge := by
    intro e edge he
    simp [seed] at he
  rcases Numbering.insert_cases Numbering.empty (c.canonical c.task.initial).1 with
    ⟨i, hi, -⟩ | ⟨table, heq, hsize, hitem⟩
  · simp [Numbering.item?, Numbering.empty] at hi
  · have htable : (seed c).table = table := congrArg Prod.fst heq
    refine ⟨?_, ?_, fun he => absurd he hno, fun he => absurd he hno, fun he => absurd he hno,
      fun hx => ?_⟩
    · simp only [seed, heq, hsize]
      rfl
    · have hroot := stateOf?_nodeOf (seed c) 0
      rw [show root = nodeOf 0 from rfl, hroot, htable]
      exact (hitem _ _).mpr (.inr ⟨rfl, rfl⟩)
    · obtain ⟨i, rfl, hi⟩ := stateOf?_eq_some_iff.mp hx
      rw [htable, hitem] at hi
      rcases hi with hi | ⟨rfl, -⟩
      · simp [Numbering.item?, Numbering.empty] at hi
      · exact ⟨[], .nil root⟩

theorem start_recorded (h : start c = .ok s) : Recorded c s := by
  have hsame := SameRecord.open? c (seed c) root 0 none
  rw [start_eq_ok_iff.mp h] at hsame
  exact hsame.recorded (seed_recorded c)

/-- A step takes a node out of the open list and expands it. -/
theorem step_recorded (h : Recorded c s) : Recorded c (s.step c).1 ∧ Grows s (s.step c).1 := by
  unfold step
  split
  · exact ⟨h, .refl s⟩
  · split
    · rename_i frontier _
      have hsame : SameRecord s { s with frontier := frontier } := ⟨rfl, rfl, rfl, id, id⟩
      exact ⟨hsame.recorded h, hsame.grows⟩
    · rename_i v _ _ frontier _
      have hsame : ∀ k, SameRecord s ⟨s.table,
          s.nodes.setIfInBounds v { s.node v with status := .closed }, s.edges, frontier, k⟩ := by
        intro k
        refine SameRecord.setNode (s := s) (v := v) ?_ ?_ _ _
        · exact id
        · exact fun _ => nofun
      simp only
      split
      · exact ⟨(hsame s.statistics).recorded h, (hsame s.statistics).grows⟩
      · obtain ⟨hs, hg, -⟩ := expand_recorded ((hsame _).recorded h) v _
        exact ⟨hs, (hsame _).grows.trans hg⟩

theorem leastEstimate?_sameRecord (s : Search) : SameRecord s s.leastEstimate?.2 :=
  ⟨rfl, rfl, rfl, id, id⟩

/-- A search that was started and went on, whatever its steps came to. -/
inductive Reached (c : SearchSetting) : Search → Prop
  | start {s : Search} : start c = .ok s → Reached c s
  | step {s : Search} : Reached c s → Reached c (s.step c).1
  | leastEstimate {s : Search} : Reached c s → Reached c s.leastEstimate?.2

theorem Reached.recorded (h : Reached c s) : Recorded c s := by
  induction h with
  | start h => exact start_recorded h
  | step _ ih => exact (step_recorded ih).1
  | leastEstimate _ ih => exact (leastEstimate?_sameRecord _).recorded ih

end RankedPlans.Search
