import Mathlib.Data.List.Sort
import RankedPlans.Proofs.Search.Progress

/-! The recorded graph as an image of the task. Every state has one node. A node that was expanded has one edge for
each operator that is applicable in its state, by ascending number, and after them one to the sink if the state is a
goal; any other node has none. What was recorded once stays as it is, also when a node is opened again. -/

namespace RankedPlans

/-- The order in which a node records what its edges stand for: operators by number, and the end of a plan last. -/
def EdgeLabel.Before : EdgeLabel → EdgeLabel → Prop
  | .operator op, .operator op' => op < op'
  | .operator _, .goal => True
  | .goal, _ => False

instance : Std.Asymm EdgeLabel.Before where
  asymm := by
    rintro (op | _) (op' | _) h h'
    · exact Nat.lt_asymm h h'
    · exact h'
    · exact h
    · exact h

theorem EdgeLabel.before_goal {label : EdgeLabel} (h : label ≠ .goal) : label.Before .goal := by
  cases label with
  | operator op => exact trivial
  | goal => exact absurd rfl h

/-- What the edges out of a state stand for: the applicable operators, by ascending number, and the end of a plan if
the state is a goal. -/
def Task.labels (t : Task) (x : State) : List EdgeLabel :=
  ((List.range t.operators.size).filter fun op => (t.operator op).applicable x).map .operator ++
    if t.isGoal x then [.goal] else []

theorem Task.mem_labels_iff {t : Task} {x : State} {label : EdgeLabel} : label ∈ t.labels x ↔
    (∃ op ∈ t.applicable x, label = .operator op) ∨ label = .goal ∧ t.isGoal x = true := by
  rw [labels, ← applicable_eq_filter, List.mem_append, List.mem_map]
  refine or_congr (exists_congr fun op => and_congr_right fun _ => eq_comm) ?_
  split
  · rename_i hgoal
    simp [hgoal]
  · rename_i hgoal
    simp [hgoal]

theorem Task.pairwise_applicable (t : Task) (x : State) : (t.applicable x).Pairwise (· < ·) := by
  rw [applicable_eq_filter]
  exact List.pairwise_lt_range.filter _

theorem Task.pairwise_labels (t : Task) (x : State) : (t.labels x).Pairwise EdgeLabel.Before := by
  rw [labels, ← applicable_eq_filter, List.pairwise_append, List.pairwise_map]
  refine ⟨t.pairwise_applicable x, ?_, fun label hop label' hgoal => ?_⟩
  · split
    · exact List.pairwise_singleton ..
    · exact .nil
  · obtain ⟨op, -, rfl⟩ := List.mem_map.mp hop
    split at hgoal
    · exact List.mem_singleton.mp hgoal ▸ trivial
    · exact absurd hgoal List.not_mem_nil

namespace Search

variable {c : SearchSetting} {s s' : Search} {v w : Nat} {x : State} {cost : Int} {label : EdgeLabel}

/-- The edges out of a node, in the order in which they were recorded. -/
def edgesFrom (s : Search) (v : Nat) : List Edge :=
  (s.graph.outgoing v).filterMap (s.edges[·]?)

theorem mem_edgesFrom_iff {edge : Edge} :
    edge ∈ s.edgesFrom v ↔ (∃ e : Nat, s.edges[e]? = some edge) ∧ edge.source = v := by
  rw [edgesFrom, List.mem_filterMap]
  constructor
  · rintro ⟨e, he, hedge⟩
    obtain ⟨edge', hedge', hsource⟩ := mem_outgoing_iff.mp he
    obtain rfl := Option.some.inj (hedge.symm.trans hedge')
    exact ⟨⟨e, hedge⟩, hsource⟩
  · rintro ⟨⟨e, hedge⟩, hsource⟩
    exact ⟨e, mem_outgoing_iff.mpr ⟨edge, hedge, hsource⟩, hedge⟩

theorem mem_labels_edgesFrom_iff : label ∈ (s.edgesFrom v).map Edge.label ↔ s.HasEdge v label := by
  simp only [List.mem_map, mem_edgesFrom_iff, HasEdge]
  constructor
  · rintro ⟨edge, ⟨⟨e, he⟩, hsource⟩, hlabel⟩
    exact ⟨e, edge, he, hsource, hlabel⟩
  · rintro ⟨e, edge, he, hsource, hlabel⟩
    exact ⟨edge, ⟨⟨e, he⟩, hsource⟩, hlabel⟩

theorem pairwise_outgoing (g : Graph) (v : Nat) : (g.outgoing v).Pairwise (· < ·) :=
  List.pairwise_lt_range.filter _

/-- The edges out of each node were recorded in the order of their labels. -/
def InOrder (s : Search) : Prop :=
  ∀ (i j : Nat) (a b : Edge), s.edges[i]? = some a → s.edges[j]? = some b → a.source = b.source →
    i < j → a.label.Before b.label

theorem InOrder.congr (h : s.InOrder) (hedges : s'.edges = s.edges) : s'.InOrder := by
  intro i j a b hi hj
  rw [hedges] at hi hj
  exact h i j a b hi hj

/-- One more edge, whose label comes after those of all other edges out of its source. -/
theorem InOrder.push {edge : Edge} (h : s.InOrder) (hedges : s'.edges = s.edges.push edge)
    (hnew : ∀ {label}, s.HasEdge edge.source label → label.Before edge.label) : s'.InOrder := by
  intro i j a b hi hj hsource hlt
  rcases (edges_push hedges).mp hi with hi | ⟨rfl, rfl⟩
  · rcases (edges_push hedges).mp hj with hj | ⟨rfl, rfl⟩
    · exact h i j a b hi hj hsource hlt
    · exact hnew ⟨i, a, hi, hsource, rfl⟩
  · have hle : j ≤ s.edges.size := by
      rcases (edges_push hedges).mp hj with hj | ⟨rfl, -⟩
      · exact Nat.le_of_lt (Array.getElem?_eq_some_iff.mp hj).1
      · exact Nat.le_refl _
    omega

theorem InOrder.pairwise_labels (h : s.InOrder) (v : Nat) :
    ((s.edgesFrom v).map Edge.label).Pairwise EdgeLabel.Before := by
  rw [List.pairwise_map, edgesFrom, List.pairwise_filterMap]
  refine (pairwise_outgoing s.graph v).imp_of_mem fun hi hj hlt a ha b hb => ?_
  obtain ⟨a', ha', hsource⟩ := mem_outgoing_iff.mp hi
  obtain ⟨b', hb', hsource'⟩ := mem_outgoing_iff.mp hj
  obtain rfl := Option.some.inj (ha.symm.trans ha')
  obtain rfl := Option.some.inj (hb.symm.trans hb')
  exact h _ _ a b ha hb (hsource.trans hsource'.symm) hlt

theorem intern_edges (s : Search) (x : State) : (s.intern x).1.edges = s.edges := by
  unfold intern
  cases s
  simp only
  split <;> rfl

theorem successor_edges (c : SearchSetting) (v : Nat) (x : State) (s : Search) (op : Nat) :
    ∃ target, (successor c v x s op).1.edges =
      s.edges.push ⟨v, target, .operator op, (c.task.operator op).cost⟩ := by
  refine ⟨(successor c v x s op).2.1, ?_⟩
  unfold successor record
  simp only [intern_edges]
  split <;> rfl

/-- The edges of some operators come in the order of their labels if the operators come by number and after those
of the edges that are there. -/
theorem InOrder.generate {ops : List Nat} (h : s.InOrder) (hops : ops.Pairwise (· < ·))
    (hnew : ∀ op ∈ ops, ∀ {label}, s.HasEdge v label → label.Before (.operator op)) (goal : Bool) :
    (generate c v cost x ops s goal).1.InOrder := by
  induction ops generalizing s goal with
  | nil => exact h
  | cons op ops ih =>
    obtain ⟨goal', heq⟩ := generate_cons c v cost x op ops s goal
    obtain ⟨target, hedges⟩ := successor_edges c v x s op
    obtain ⟨hlt, hops⟩ := List.pairwise_cons.mp hops
    rw [heq]
    generalize successor c v x s op = r at hedges
    have hsame := SameRecord.relax c r.1 r.2.1 (Cost.add cost (c.task.operator op).cost) r.2.2
    rcases hr : r.1.relax c r.2.1 (Cost.add cost (c.task.operator op).cost) r.2.2 with ⟨s₁, fault⟩
    rw [hr] at hsame
    have hpush := hsame.edges.trans hedges
    have hs₁ : s₁.InOrder := h.push hpush (hnew op List.mem_cons_self)
    cases fault with
    | some fault => exact hs₁
    | none =>
      refine ih hs₁ hops (fun op' hop' label hlabel => ?_) goal'
      obtain ⟨e, edge, he, hsource, rfl⟩ := hlabel
      rcases (edges_push hpush).mp he with he | ⟨-, rfl⟩
      · exact hnew op' (List.mem_cons_of_mem _ hop') ⟨e, edge, he, hsource, rfl⟩
      · exact hlt op' hop'

theorem InOrder.recordGoal (h : s.InOrder) (hnew : ¬s.HasEdge v .goal) :
    (recordGoal c v cost s).1.InOrder := by
  have hedges := (SameRecord.relax c (s.record ⟨v, sink, .goal, 0⟩).1 sink cost s.edges.size).edges
  refine h.push hedges fun {label} hlabel => EdgeLabel.before_goal fun heq => hnew ?_
  exact heq ▸ hlabel

theorem expand_again_edges (cost : Int) (hexp : (s.node v).expanded = true) :
    SameRecord s (s.expand c v cost).1 := by
  have hsame := SameRecord.relaxAgain c cost (s.graph.outgoing v) s
  unfold expand
  rw [if_pos hexp]
  generalize relaxAgain c cost (s.graph.outgoing v) s = r at hsame
  rcases r with ⟨s', _ | fault⟩ <;> exact hsame

theorem InOrder.expand (h : s.InOrder) (hs : Recorded c s) (v : Nat) (cost : Int) :
    (s.expand c v cost).1.InOrder := by
  by_cases hexp : (s.node v).expanded = true
  · exact h.congr (expand_again_edges cost hexp).edges
  cases hx : s.stateOf? v with
  | none =>
    rw [expand_stateless hexp hx]
    exact h
  | some x =>
    have hnone : ∀ label, ¬(s.markExpanded v).HasEdge v label := hs.not_hasEdge hexp
    have hgenerated : (Search.generate c v cost x (c.task.applicable x) (s.markExpanded v) false).1.InOrder :=
      InOrder.generate (s := s.markExpanded v) h (c.task.pairwise_applicable x)
        (fun _ _ _ hlabel => absurd hlabel (hnone _)) false
    have hgoal := ((hs.generating hexp hx).generate cost false).2.2.1
    rcases expand_new_state cost hexp hx with heq | heq
    · exact heq ▸ hgenerated
    · exact heq ▸ hgenerated.recordGoal fun hlabel => hnone _ (hgoal hlabel)

theorem InOrder.step (h : s.InOrder) (hs : Recorded c s) : (s.step c).1.InOrder := by
  unfold Search.step
  split
  · exact h
  split
  · exact h
  rename_i v _ _ frontier _
  have hsame : SameRecord s ⟨s.table, s.nodes.setIfInBounds v { s.node v with status := .closed }, s.edges,
      frontier, { s.statistics with expanded := s.statistics.expanded + 1 }⟩ := by
    refine SameRecord.setNode (s := s) (v := v) ?_ ?_ _ _
    · exact id
    · exact fun _ => nofun
  simp only
  split
  · exact h
  · exact (h.congr hsame.edges).expand (hsame.recorded hs) v _

theorem Reached.inOrder (h : Reached c s) : s.InOrder := by
  induction h with
  | start h =>
    have hsame := SameRecord.open? c (seed c) root 0 none
    rw [start_eq_ok_iff.mp h] at hsame
    intro i j a b hi
    rw [hsame.edges] at hi
    cases hi
  | step hs ih => exact ih.step hs.recorded
  | leastEstimate _ ih => exact ih

theorem Faultless.reached (h : Faultless c s) : Reached c s := by
  induction h with
  | start h => exact .start h
  | step _ _ ih => exact ih.step
  | leastEstimate _ ih => exact ih.leastEstimate

/-- What an edge out of a registered state stands for, by its label. -/
theorem Recorded.meant_of_mem (h : Recorded c s) (hx : s.stateOf? v = some x) {edge : Edge}
    (hedge : edge ∈ s.edgesFrom v) :
    (∀ op, edge.label = .operator op → op ∈ c.task.applicable x ∧ edge.cost = (c.task.operator op).cost ∧
      s.stateOf? edge.target = some (c.canonical (c.task.apply x op)).1) ∧
    (edge.label = .goal → c.task.isGoal x = true ∧ edge.cost = 0 ∧ edge.target = sink) := by
  obtain ⟨⟨e, he⟩, rfl⟩ := mem_edgesFrom_iff.mp hedge
  obtain ⟨y, hy, hmeant⟩ := h.meant he
  obtain rfl := Option.some.inj (hy.symm.trans hx)
  constructor
  · intro op hop
    rwa [hop] at hmeant
  · intro hgoal
    rwa [hgoal] at hmeant

/-- The edges out of a node are those of a state: one for each operator that is applicable there, by ascending number,
at the cost of the operator and to the node of what it leads to, and then one without cost to the sink if the state is
a goal. -/
structure Depicts (c : SearchSetting) (s : Search) (v : Nat) (x : State) : Prop where
  labels : (s.edgesFrom v).map Edge.label = c.task.labels x
  operator : ∀ edge ∈ s.edgesFrom v, ∀ op, edge.label = .operator op →
    edge.cost = (c.task.operator op).cost ∧
    s.stateOf? edge.target = some (c.canonical (c.task.apply x op)).1
  goal : ∀ edge ∈ s.edgesFrom v, edge.label = .goal → edge.cost = 0 ∧ edge.target = sink

theorem Recorded.mem_labels (h : Recorded c s) (hx : s.stateOf? v = some x) (hlabel : s.HasEdge v label) :
    label ∈ c.task.labels x := by
  obtain ⟨edge, hedge, rfl⟩ := List.mem_map.mp (mem_labels_edgesFrom_iff.mpr hlabel)
  obtain ⟨hoperator, hgoal⟩ := h.meant_of_mem hx hedge
  rw [Task.mem_labels_iff]
  cases hlabel : edge.label with
  | operator op => exact .inl ⟨op, (hoperator op hlabel).1, rfl⟩
  | goal => exact .inr ⟨rfl, (hgoal hlabel).1⟩

theorem Complete.hasEdge (h : Complete c s v x) (hlabel : label ∈ c.task.labels x) : s.HasEdge v label := by
  rcases Task.mem_labels_iff.mp hlabel with ⟨op, hop, rfl⟩ | ⟨rfl, hgoal⟩
  · exact h.operator op hop
  · exact h.goal hgoal

theorem Complete.depicts (h : Complete c s v x) (hs : Recorded c s) (ho : s.InOrder)
    (hx : s.stateOf? v = some x) : Depicts c s v x := by
  refine ⟨?_, fun edge hedge op hop => ((hs.meant_of_mem hx hedge).1 op hop).2,
    fun edge hedge hgoal => ((hs.meant_of_mem hx hedge).2 hgoal).2⟩
  refine (ho.pairwise_labels v).eq_of_mem_iff (c.task.pairwise_labels x) fun label => ?_
  rw [mem_labels_edgesFrom_iff]
  exact ⟨hs.mem_labels hx, h.hasEdge⟩

/-- A node with all its edges gets no further one. -/
theorem Complete.outgoing_eq (h : Complete c s v x) (hx : s.stateOf? v = some x) (hg : Grows s s')
    (hs' : Recorded c s') : s'.graph.outgoing v = s.graph.outgoing v := by
  refine (pairwise_outgoing s'.graph v).eq_of_mem_iff (pairwise_outgoing s.graph v) fun e => ?_
  rw [mem_outgoing_iff, mem_outgoing_iff]
  constructor
  · rintro ⟨edge, he, hsource⟩
    obtain ⟨e', edge', he', hsource', hlabel⟩ :=
      h.hasEdge (hs'.mem_labels (hg.state hx) ⟨e, edge, he, hsource, rfl⟩)
    obtain rfl := hs'.unique he (hg.edge he') (hsource.trans hsource'.symm) hlabel.symm
    exact ⟨edge', he', hsource'⟩
  · rintro ⟨edge, he, hsource⟩
    exact ⟨edge, hg.edge he, hsource⟩

theorem Recorded.outgoing_nil (h : Recorded c s) (hv : v = sink ∨ (s.node v).expanded = false) :
    s.graph.outgoing v = [] := by
  refine List.eq_nil_iff_forall_not_mem.mpr fun e he => ?_
  obtain ⟨edge, hedge, rfl⟩ := mem_outgoing_iff.mp he
  rcases hv with hsink | hexp
  · obtain ⟨x, hx, -⟩ := h.meant hedge
    exact ne_sink_of_stateOf? hx hsink
  · exact Bool.noConfusion ((h.expanded hedge).symm.trans hexp)

/-- A step that takes a node whose edges are recorded changes neither edges nor states. -/
theorem step_expanded {estimate : Int} {number : Nat} {o : OpenList}
    (hpop : s.frontier.pop? s.isCurrent = (some (v, estimate, number), o))
    (hexp : (s.node v).expanded = true) :
    (s.step c).1.edges = s.edges ∧ (s.step c).1.table = s.table := by
  unfold step
  split
  · exact ⟨rfl, rfl⟩
  rw [hpop]
  simp only
  split
  · exact ⟨rfl, rfl⟩
  · generalize hs' : count _ _ = s'
    have hsame : SameRecord s s' := by
      rw [← hs']
      refine SameRecord.setNode (s := s) (v := v) ?_ ?_ _ _
      · exact id
      · exact fun _ => nofun
    have hagain := hsame.trans (expand_again_edges (c := c) (s.node v).cost (hsame.expanded hexp))
    exact ⟨hagain.edges, hagain.table⟩

/-- The recorded graph shows the task, as far as nodes were expanded. -/
structure Image (c : SearchSetting) (s : Search) : Prop where
  /-- Different nodes have different states. -/
  distinct : ∀ {v w : Nat} {x : State}, s.stateOf? v = some x → s.stateOf? w = some x → v = w
  /-- Every state of the table has one node. -/
  registered : ∀ {i : Nat} {x : State}, s.table.item? i = some x →
    ∃! v, v < s.nodes.size ∧ s.stateOf? v = some x
  /-- Every node but the sink has a state of the table. -/
  state : ∀ {v : Nat}, v < s.nodes.size → v ≠ sink →
    ∃ i x, s.table.item? i = some x ∧ s.stateOf? v = some x
  /-- The edges of a node were recorded when it was first taken. -/
  expanded : ∀ {v : Nat}, (s.node v).status = .closed → v ≠ sink → (s.node v).expanded = true
  depicts : ∀ {v : Nat} {x : State}, s.stateOf? v = some x → (s.node v).expanded = true → Depicts c s v x
  bare : ∀ {v : Nat}, v = sink ∨ (s.node v).expanded = false → s.edgesFrom v = []

theorem Recorded.registered (h : Recorded c s) {i : Nat} (hi : s.table.item? i = some x) :
    ∃! v, v < s.nodes.size ∧ s.stateOf? v = some x := by
  have hx : s.stateOf? (nodeOf i) = some x := (stateOf?_nodeOf s i).trans hi
  exact ⟨nodeOf i, ⟨lt_nodes_of_stateOf? h.size_eq hx, hx⟩, fun v hv => stateOf?_injective hv.2 hx⟩

theorem Recorded.exists_item (h : Recorded c s) (hv : v < s.nodes.size) (hne : v ≠ sink) :
    ∃ i x, s.table.item? i = some x ∧ s.stateOf? v = some x := by
  obtain ⟨x, hx⟩ := exists_stateOf? h.size_eq hv hne h.root_state
  obtain ⟨i, -, hi⟩ := stateOf?_eq_some_iff.mp hx
  exact ⟨i, x, hi, hx⟩

/-- After any number of steps without failure the recorded graph shows the task. Opening a node again leaves the
edges alone, a step that takes a node whose edges are recorded changes neither edges nor states, and no step at all
changes the edges out of such a node. -/
theorem Faultless.image (h : Faultless c s) :
    Image c s ∧
    (∀ v cost via, (s.relax c v cost via).1.edges = s.edges) ∧
    (∀ v estimate number o, s.frontier.pop? s.isCurrent = (some (v, estimate, number), o) →
      (s.node v).expanded = true → (s.step c).1.edges = s.edges ∧ (s.step c).1.table = s.table) ∧
    ∀ v x, s.stateOf? v = some x → (s.node v).expanded = true →
      (s.step c).1.graph.outgoing v = s.graph.outgoing v ∧ (s.step c).1.edgesFrom v = s.edgesFrom v := by
  have hs := h.underway.1
  have hcomplete : ∀ {v x}, s.stateOf? v = some x → (s.node v).expanded = true → Complete c s v x :=
    fun hx hexp => hs.complete hx hexp (Option.some_ne_none _).symm
  refine ⟨?_, fun v cost via => (SameRecord.relax c s v cost via).edges,
    fun v estimate number o hpop hexp => step_expanded hpop hexp, fun v x hx hexp => ?_⟩
  · constructor
    case distinct => exact stateOf?_injective
    case registered => exact hs.recorded.registered
    case state => exact hs.recorded.exists_item
    case expanded => exact fun hclosed hne => hs.expanded hclosed hne (Option.some_ne_none _).symm
    case depicts => exact fun hx hexp => (hcomplete hx hexp).depicts hs.recorded h.reached.inOrder hx
    case bare => exact fun hv => by rw [edgesFrom, hs.recorded.outgoing_nil hv, List.filterMap_nil]
  · obtain ⟨hs', hg⟩ := step_recorded hs.recorded
    have houtgoing := (hcomplete hx hexp).outgoing_eq hx hg hs'
    refine ⟨houtgoing, ?_⟩
    rw [edgesFrom, edgesFrom, houtgoing]
    refine List.filterMap_congr fun e he => ?_
    obtain ⟨edge, hedge, -⟩ := mem_outgoing_iff.mp he
    exact (hg.edge hedge).trans hedge.symm

/-- A move from the start to the end, and two over the side that cost less. -/
def sideRoad : Task where
  vars := #[⟨"place", ["start", "side", "end"]⟩]
  operators := #[⟨"direct", 5, [⟨0, 0⟩], [⟨0, 2⟩]⟩, ⟨"aside", 1, [⟨0, 0⟩], [⟨0, 1⟩]⟩,
    ⟨"join", 1, [⟨0, 1⟩], [⟨0, 2⟩]⟩]
  initial := #[0]
  goal := [⟨0, 2⟩]
  normalized := by decide +kernel
  faultless := by decide +kernel

/-- The estimate of the side is too high, so that the end is closed before its least cost is known. -/
def sideRoadSetting : SearchSetting :=
  ⟨sideRoad, .ofTable "late" (.value 0) [(#[1], .value 10)], none, true, none⟩

/-- A search for these moves, after so many steps. -/
def sideRoadSearch : Nat → Search
  | 0 => ((seed sideRoadSetting).open? sideRoadSetting root 0 none).1
  | n + 1 => ((sideRoadSearch n).step sideRoadSetting).1

theorem sideRoadSearch_faultless : Faultless sideRoadSetting (sideRoadSearch 4) := by
  have hstart : start sideRoadSetting = .ok (sideRoadSearch 0) := start_eq_ok (by decide +kernel)
  have houtcome : ((sideRoadSearch 0).step sideRoadSetting).2 = .expanded true ∧
      ((sideRoadSearch 1).step sideRoadSetting).2 = .expanded true ∧
      ((sideRoadSearch 2).step sideRoadSetting).2 = .solved 5 ∧
      ((sideRoadSearch 3).step sideRoadSetting).2 = .expanded true := by decide +kernel
  obtain ⟨hfirst, hsecond, hthird, hfourth⟩ := houtcome
  have hone : Faultless sideRoadSetting (sideRoadSearch 1) := .step (.start hstart) (by rw [hfirst]; nofun)
  have htwo : Faultless sideRoadSetting (sideRoadSearch 2) := hone.step (by rw [hsecond]; nofun)
  have hthree : Faultless sideRoadSetting (sideRoadSearch 3) := htwo.step (by rw [hthird]; nofun)
  exact hthree.step (by rw [hfourth]; nofun)

/-- The end is taken a second time, and the graph stays as it is. -/
theorem Faultless.image_sideRoad :
    Faultless sideRoadSetting (sideRoadSearch 4) ∧ (sideRoadSearch 4).statistics.reopened = 1 ∧
    ((sideRoadSearch 4).edgesFrom root).map Edge.label = [.operator 0, .operator 1] ∧
    (sideRoadSearch 5).edges = (sideRoadSearch 4).edges := by
  have hend : ((sideRoadSearch 4).node 2).expanded = true ∧
      (sideRoadSearch 4).stateOf? root = some #[0] ∧ ((sideRoadSearch 4).node root).expanded = true := by
    decide +kernel
  have hpop : ((sideRoadSearch 4).frontier.pop? (sideRoadSearch 4).isCurrent).1 = some (2, 2, 4) := by
    decide +kernel
  obtain ⟨himage, -, hagain, -⟩ := Faultless.image sideRoadSearch_faultless
  refine ⟨sideRoadSearch_faultless, by decide +kernel, (himage.depicts hend.2.1 hend.2.2).labels.trans ?_,
    (hagain 2 2 4 _ (Prod.ext hpop rfl) hend.1).1⟩
  decide +kernel

end Search

end RankedPlans
