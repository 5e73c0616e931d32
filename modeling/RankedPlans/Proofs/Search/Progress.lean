import RankedPlans.Proofs.Cost
import RankedPlans.Proofs.Graph.Walk
import RankedPlans.Proofs.Search.OpenList
import RankedPlans.Proofs.Search.Recorded

/-! What a search has done so far. Every waiting node has an entry on the open list, and every closed node
has passed its cost on along all of its edges. While a node is being expanded, some of its edges are
still to be recorded and some to be tried. -/

namespace RankedPlans.Search

variable {c : SearchSetting} {s s' : Search} {v w : Nat} {x : State} {cost : Int}
  {todo : List Nat} {busy : Option Nat}

/-- A node that has a cost. -/
def Met (s : Search) (v : Nat) : Prop :=
  (s.node v).status = .waiting ∨ (s.node v).status = .closed

/-- The cost of the source has been passed on along an edge, unless the target takes none any more. -/
def Tried (c : SearchSetting) (s : Search) (edge : Edge) : Prop :=
  (s.node edge.target).status ≠ .unseen ∧ ((s.node edge.target).status = .deadEnd ∨
    (s.node edge.target).status = .closed ∧ (c.reopen = false ∨ edge.target = sink) ∨
    (s.node edge.target).cost ≤ Cost.add (s.node edge.source).cost edge.cost)

/-- What holds while the edges in `todo` have not been tried and the node `busy` is being expanded. -/
structure Underway (c : SearchSetting) (s : Search) (todo : List Nat) (busy : Option Nat) :
    Prop where
  recorded : Recorded c s
  valid : s.frontier.queue.Valid costThenNumber
  waits : ∀ {v : Nat}, (s.node v).status = .waiting → ∃ number,
    ((Cost.add (s.node v).cost (s.node v).estimate, number), ⟨v, (s.node v).cost⟩) ∈
      s.frontier.entries
  queued : ∀ x ∈ s.frontier.entries, x.1.1 = Cost.add x.2.cost (s.node x.2.node).estimate ∧
    (s.node x.2.node).status ≠ .unseen
  estimate : ∀ {v : Nat} {x : State}, s.stateOf? v = some x → s.Met v →
    c.heuristic.estimate c.task x = .value (s.node v).estimate
  deadEnd : ∀ {v : Nat} {x : State}, s.stateOf? v = some x → (s.node v).status = .deadEnd →
    c.heuristic.estimate c.task x = .deadEnd
  sink_estimate : (s.node sink).estimate = 0
  sink_alive : (s.node sink).status ≠ .deadEnd
  walk : ∀ {v : Nat}, s.Met v → ∃ es, s.graph.Walk root es v ∧
    (s.node v).cost = min Cost.top (s.graph.cost es)
  root_cost : (s.node root).cost ≤ 0
  tried : ∀ {e : Nat} {edge : Edge}, s.edges[e]? = some edge → e ∉ todo →
    (s.node edge.source).status = .closed → Tried c s edge
  met : ∀ {v : Nat}, (s.node v).expanded = true → s.Met v
  expanded : ∀ {v : Nat}, (s.node v).status = .closed → v ≠ sink → busy ≠ some v →
    (s.node v).expanded = true
  complete : ∀ {v : Nat} {x : State}, s.stateOf? v = some x → (s.node v).expanded = true →
    busy ≠ some v → Complete c s v x

theorem Met.ne_unseen (h : s.Met v) : (s.node v).status ≠ .unseen := by
  rcases h with h | h <;> simp [h]

/-- The state of a node that was seen before is the one that it had. -/
theorem Recorded.state_of_seen (h : Recorded c s) (hg : Grows s s')
    (hv : (s.node v).status ≠ .unseen) (hx : s'.stateOf? v = some x) : s.stateOf? v = some x := by
  obtain ⟨y, hy⟩ := exists_stateOf? h.size_eq (lt_nodes_of_status hv) (ne_sink_of_stateOf? hx)
    h.root_state
  rw [hy, ← hx, hg.state hy]

namespace Underway

theorem cost_le_top (h : Underway c s todo busy) (hv : s.Met v) : (s.node v).cost ≤ Cost.top := by
  obtain ⟨es, -, hcost⟩ := h.walk hv
  omega

theorem cost_nonneg (h : Underway c s todo busy) (hv : s.Met v) : 0 ≤ (s.node v).cost := by
  obtain ⟨es, hes, hcost⟩ := h.walk hv
  have := hes.cost_nonneg fun he => h.recorded.cost_nonneg he
  have : 0 ≤ Cost.top := by decide
  omega

/-- An edge that has been tried need not be tried again. -/
theorem done {e : Nat} (h : Underway c s (e :: todo) busy)
    (hdone : ∀ {edge}, s.edges[e]? = some edge → (s.node edge.source).status = .closed →
      Tried c s edge) : Underway c s todo busy :=
  { h with
    tried := fun {e'} {edge} he hnot hclosed => by
      by_cases heq : e' = e
      · subst heq
        exact hdone he hclosed
      · exact h.tried he (by simp [heq, hnot]) hclosed }

end Underway

/-- A node and an open list may become these. -/
structure Change (c : SearchSetting) (s : Search) (v : Nat) (n : SearchNode) (o : OpenList)
    (todo : List Nat) (busy : Option Nat) : Prop where
  lt_nodes : v < s.nodes.size
  seen : n.status ≠ .unseen
  expanded : (s.node v).expanded = true → n.expanded = true
  unexpanded : n.expanded = true → (s.node v).expanded = true ∨ busy = some v
  estimate_eq : (s.node v).status ≠ .unseen → n.estimate = (s.node v).estimate
  estimate : ∀ {x : State}, s.stateOf? v = some x → n.status ≠ .deadEnd →
    c.heuristic.estimate c.task x = .value n.estimate
  deadEnd : ∀ {x : State}, s.stateOf? v = some x → n.status = .deadEnd →
    c.heuristic.estimate c.task x = .deadEnd
  sink : v = sink → n.estimate = 0 ∧ n.status ≠ .deadEnd
  walk : n.status ≠ .deadEnd → ∃ es, s.graph.Walk root es v ∧
    n.cost = min Cost.top (s.graph.cost es)
  root : v = root → n.cost ≤ 0
  lower : (s.node v).status ≠ .unseen → (s.node v).status ≠ .deadEnd ∧ n.cost ≤ (s.node v).cost ∧
    ((s.node v).status = .closed → n.status = .closed ∨ c.reopen = true ∧ v ≠ Search.sink)
  source : n.status = .closed → ∀ {e : Nat} {edge : Edge}, s.edges[e]? = some edge →
    edge.source = v → e ∈ todo
  met : n.expanded = true → n.status ≠ .deadEnd
  busy : n.status = .closed → busy = some v
  valid : o.queue.Valid costThenNumber
  own : n.status = .waiting → ∃ number,
    ((Cost.add n.cost n.estimate, number), ⟨v, n.cost⟩) ∈ o.entries
  kept : ∀ x ∈ s.frontier.entries, x.2.node ≠ v → s.isCurrent x.2.node x.2.cost = true →
    x ∈ o.entries
  added : ∀ x ∈ o.entries, x ∈ s.frontier.entries ∨
    x.2.node = v ∧ x.1.1 = Cost.add x.2.cost n.estimate

theorem isCurrent_iff :
    s.isCurrent v cost = true ↔ (s.node v).status = .waiting ∧ (s.node v).cost = cost := by
  simp [isCurrent]

/-- The searches differ only in a node and the open list. -/
structure Updated (s s' : Search) (v : Nat) (n : SearchNode) (o : OpenList) : Prop where
  same : SameRecord s s'
  graph : s'.graph = s.graph
  frontier : s'.frontier = o
  self : s'.node v = n
  other : ∀ {w : Nat}, w ≠ v → s'.node w = s.node w

theorem Change.updated {n : SearchNode} {o : OpenList} (hn : Change c s v n o todo busy)
    (k : Statistics) :
    Updated s ⟨s.table, s.nodes.setIfInBounds v n, s.edges, o, k⟩ v n o := by
  have hsame : SameRecord s ⟨s.table, s.nodes.setIfInBounds v n, s.edges, o, k⟩ := by
    refine SameRecord.setNode (s := s) (v := v) ?_ ?_ _ _
    · exact hn.expanded
    · exact fun _ => hn.seen
  refine ⟨hsame, ?_, rfl, node_set_self hn.lt_nodes n o k, fun hw => node_set_ne hw n o k⟩
  rw [graph, graph, hsame.size]

namespace Updated

variable {n : SearchNode} {o : OpenList}

/-- What holds of the new node and of all others before holds of every node. -/
theorem forall_node (hu : Updated s s' v n o) {p : Nat → SearchNode → Prop} (hself : p v n)
    (hother : ∀ w, w ≠ v → p w (s.node w)) (w : Nat) : p w (s'.node w) := by
  by_cases hw : w = v
  · rw [hw, hu.self]
    exact hself
  · rw [hu.other hw]
    exact hother w hw

theorem waits (hu : Updated s s' v n o) (h : Underway c s todo busy)
    (hn : Change c s v n o todo busy) (w : Nat) (hw : (s'.node w).status = .waiting) :
    ∃ number, ((Cost.add (s'.node w).cost (s'.node w).estimate, number), ⟨w, (s'.node w).cost⟩) ∈
      s'.frontier.entries := by
  rw [hu.frontier]
  by_cases hwv : w = v
  · subst hwv
    rw [hu.self] at hw ⊢
    exact hn.own hw
  · rw [hu.other hwv] at hw ⊢
    obtain ⟨number, hmem⟩ := h.waits hw
    exact ⟨number, hn.kept _ hmem hwv (isCurrent_iff.mpr ⟨hw, rfl⟩)⟩

theorem queued (hu : Updated s s' v n o) (h : Underway c s todo busy)
    (hn : Change c s v n o todo busy) : ∀ x ∈ s'.frontier.entries,
      x.1.1 = Cost.add x.2.cost (s'.node x.2.node).estimate ∧ (s'.node x.2.node).status ≠ .unseen := by
  intro x hx
  rw [hu.frontier] at hx
  rcases hn.added x hx with hmem | ⟨hv, hkey⟩
  · obtain ⟨hkey, hseen⟩ := h.queued x hmem
    refine ⟨?_, hu.same.seen hseen⟩
    by_cases hw : x.2.node = v
    · rw [hkey, hw, hu.self, hn.estimate_eq (hw ▸ hseen)]
    · rw [hu.other hw, hkey]
  · rw [hv, hu.self]
    exact ⟨hkey, hn.seen⟩

/-- A node that becomes cheaper is still cheap enough for the edges into it, and edges out of a node that
is not closed need not be tried. -/
theorem tried (hu : Updated s s' v n o) (h : Underway c s todo busy)
    (hn : Change c s v n o todo busy) {e : Nat} {edge : Edge} (he : s'.edges[e]? = some edge)
    (hnot : e ∉ todo) (hclosed : (s'.node edge.source).status = .closed) : Tried c s' edge := by
  rw [hu.same.edges] at he
  have hsource : edge.source ≠ v := by
    intro hw
    rw [hw, hu.self] at hclosed
    exact hnot (hn.source hclosed he hw)
  rw [hu.other hsource] at hclosed
  obtain ⟨hseen, htried⟩ := h.tried he hnot hclosed
  refine ⟨hu.same.seen hseen, ?_⟩
  rw [hu.other hsource]
  by_cases hw : edge.target = v
  · rw [hw] at htried hseen
    obtain ⟨hdead, hle, hsink⟩ := hn.lower hseen
    rw [hw, hu.self]
    rcases htried with hdead' | ⟨hclosed', hfinal⟩ | hcost
    · exact absurd hdead' hdead
    · rcases hsink hclosed' with hstill | ⟨hreopen, hv⟩
      · exact .inr (.inl ⟨hstill, hw ▸ hfinal⟩)
      · rcases hfinal with hno | hv'
        · exact absurd hreopen (by simp [hno])
        · exact absurd hv' (hw ▸ hv)
    · exact .inr (.inr (Int.le_trans hle hcost))
  · rw [hu.other hw]
    exact htried

end Updated

/-- A node that is seen and no dead end has a cost. -/
theorem met_of_seen {n : SearchNode} (hseen : n.status ≠ .unseen) (halive : n.status ≠ .deadEnd) :
    n.status = .waiting ∨ n.status = .closed := by
  cases hstatus : n.status with
  | unseen => exact absurd hstatus hseen
  | waiting => exact .inl rfl
  | closed => exact .inr rfl
  | deadEnd => exact absurd hstatus halive

namespace Underway

theorem change {n : SearchNode} {o : OpenList} (h : Underway c s todo busy)
    (hn : Change c s v n o todo busy) (k : Statistics) :
    Underway c ⟨s.table, s.nodes.setIfInBounds v n, s.edges, o, k⟩ todo busy := by
  have hu := hn.updated k
  generalize (⟨s.table, s.nodes.setIfInBounds v n, s.edges, o, k⟩ : Search) = s' at *
  have halive : n.status = .waiting ∨ n.status = .closed → n.status ≠ .deadEnd := by
    rintro (hw | hw) <;> simp [hw]
  constructor
  case recorded => exact hu.same.recorded h.recorded
  case valid => exact hu.frontier ▸ hn.valid
  case waits => exact hu.waits h hn _
  case queued => exact hu.queued h hn
  case estimate =>
    intro w x hx
    rw [hu.same.stateOf?] at hx
    exact hu.forall_node (p := fun w m => s.stateOf? w = some x →
      m.status = .waiting ∨ m.status = .closed → c.heuristic.estimate c.task x = .value m.estimate)
      (fun hx hm => hn.estimate hx (halive hm)) (fun _ _ hx hm => h.estimate hx hm) w hx
  case deadEnd =>
    intro w x hx
    rw [hu.same.stateOf?] at hx
    exact hu.forall_node (p := fun w m => s.stateOf? w = some x → m.status = .deadEnd →
      c.heuristic.estimate c.task x = .deadEnd) hn.deadEnd (fun _ _ => h.deadEnd) w hx
  case sink_estimate =>
    exact hu.forall_node (p := fun w m => w = sink → m.estimate = 0) (fun hw => (hn.sink hw).1)
      (fun _ _ hw => hw ▸ h.sink_estimate) sink rfl
  case sink_alive =>
    exact hu.forall_node (p := fun w m => w = sink → m.status ≠ .deadEnd)
      (fun hw => (hn.sink hw).2) (fun _ _ hw => hw ▸ h.sink_alive) sink rfl
  case walk =>
    intro w
    rw [hu.graph]
    exact hu.forall_node (p := fun w m => m.status = .waiting ∨ m.status = .closed →
      ∃ es, s.graph.Walk root es w ∧ m.cost = min Cost.top (s.graph.cost es))
      (fun hm => hn.walk (halive hm)) (fun _ _ => h.walk) w
  case root_cost =>
    exact hu.forall_node (p := fun w m => w = root → m.cost ≤ 0) hn.root
      (fun _ _ hw => hw ▸ h.root_cost) root rfl
  case tried => exact hu.tried h hn
  case met =>
    intro w
    exact hu.forall_node (p := fun _ m => m.expanded = true → m.status = .waiting ∨ m.status = .closed)
      (fun hw => met_of_seen hn.seen (hn.met hw)) (fun _ _ => h.met) w
  case expanded =>
    intro w
    exact hu.forall_node (p := fun w m => m.status = .closed → w ≠ sink → busy ≠ some w →
      m.expanded = true) (fun hw _ hbusy => absurd (hn.busy hw) hbusy) (fun _ _ => h.expanded) w
  case complete =>
    intro w x hx hw hbusy
    rw [hu.same.stateOf?] at hx
    have hbefore := hu.forall_node (p := fun w m => m.expanded = true → busy ≠ some w →
      (s.node w).expanded = true) (fun hw => (hn.unexpanded hw).resolve_right) (fun _ _ hw _ => hw) w
    exact (h.complete hx (hbefore hw hbusy) hbusy).grows hu.same.grows

theorem settle {o : OpenList} (h : Underway c s todo busy)
    (ho : OpenList.Settled s.isCurrent s.frontier o) :
    Underway c { s with frontier := o } todo busy :=
  { h with
    recorded := (SameRecord.recorded (s := s) ⟨rfl, rfl, rfl, id, id⟩ h.recorded)
    valid := ho.valid
    waits := fun {v} hv => by
      obtain ⟨number, hmem⟩ := h.waits hv
      exact ⟨number, ho.kept _ hmem (isCurrent_iff.mpr ⟨hv, rfl⟩)⟩
    queued := fun x hx => h.queued x (ho.subset x hx)
    complete := fun hx hv hbusy => ⟨(h.complete hx hv hbusy).operator, (h.complete hx hv hbusy).goal⟩ }

/-- A node waits with an entry of its own. -/
theorem change_waiting {n : SearchNode} (h : Underway c s todo busy) (hv : v < s.nodes.size)
    (hexpanded : n.expanded = (s.node v).expanded)
    (hsame : (s.node v).status ≠ .unseen → n.estimate = (s.node v).estimate)
    (hestimate : ∀ {x}, s.stateOf? v = some x →
      c.heuristic.estimate c.task x = .value n.estimate)
    (hsink : v = sink → n.estimate = 0)
    (hwalk : ∃ es, s.graph.Walk root es v ∧ n.cost = min Cost.top (s.graph.cost es))
    (hroot : v = root → n.cost ≤ 0)
    (hlower : (s.node v).status ≠ .unseen → (s.node v).status ≠ .deadEnd ∧
      n.cost ≤ (s.node v).cost ∧
      ((s.node v).status = .closed → c.reopen = true ∧ v ≠ sink)) :
    Change c s v { n with status := .waiting }
      (s.frontier.push v (Cost.add n.cost n.estimate) n.cost) todo busy := by
  have hentries := s.frontier.entries_push v (Cost.add n.cost n.estimate) n.cost
  refine ⟨hv, nofun, fun hv => hexpanded ▸ hv, fun hv => .inl (hexpanded ▸ hv), hsame,
    fun hx _ => hestimate hx, fun _ => nofun, fun hv => ⟨hsink hv, nofun⟩, fun _ => hwalk, hroot,
    fun hseen => (hlower hseen).imp_right (And.imp_right fun hc hclosed => .inr (hc hclosed)),
    nofun, fun _ => nofun, nofun, h.valid.push costThenNumber_totalPreorder _ _, fun _ => ?_,
    fun x hx _ _ => ?_, fun x hx => ?_⟩
  · exact ⟨_, hentries.mem_iff.mpr (List.mem_cons_self ..)⟩
  · exact hentries.mem_iff.mpr (List.mem_cons_of_mem _ hx)
  · rcases List.mem_cons.mp (hentries.mem_iff.mp hx) with rfl | hx
    · exact .inr ⟨rfl, rfl⟩
    · exact .inl hx

/-- A node that has not been seen is met at a cost. -/
theorem meet {via : Option Nat} (h : Underway c s todo busy) (hv : v < s.nodes.size)
    (hstatus : (s.node v).status = .unseen)
    (hwalk : ∃ es, s.graph.Walk root es v ∧ cost = min Cost.top (s.graph.cost es))
    (hroot : v = root → cost ≤ 0) (hr : s.open? c v cost via = (s', none)) :
    Underway c s' todo busy ∧ (∀ w, w ≠ v → s'.node w = s.node w) ∧
      (s'.node v).status ≠ .unseen ∧ ((s'.node v).status = .deadEnd ∨ (s'.node v).cost = cost) := by
  have hself := node_set_self hv
  have hno : (s.node v).expanded ≠ true := fun hexp => (h.met hexp).ne_unseen hstatus
  rcases open?_cases c s v cost via with
    ⟨k, e, heq, hx⟩ | ⟨k, x, heq, hx, hdead⟩ | ⟨k, fault, -, -, heq, -⟩
  · rw [enqueue_eq] at heq
    obtain ⟨rfl, -⟩ := Prod.mk.inj (hr.symm.trans heq)
    have hchange := h.change_waiting (v := v)
      (n := { s.node v with cost := cost, estimate := e, parent := via }) hv rfl
      (fun hseen => absurd hstatus hseen)
      (fun {y} hy => by
        rcases hx with ⟨hnone, -⟩ | ⟨x, hx, hvalue, -⟩
        · rw [hnone] at hy
          cases hy
        · obtain rfl := Option.some.inj (hx.symm.trans hy)
          exact hvalue)
      (fun hsink => by
        rcases hx with ⟨-, rfl⟩ | ⟨x, hx, -⟩
        · rfl
        · exact absurd hsink (ne_sink_of_stateOf? hx))
      hwalk hroot (fun hseen => absurd hstatus hseen)
    refine ⟨h.change hchange k, fun w hw => node_set_ne hw _ _ k, ?_, .inr ?_⟩
    · rw [hself]
      nofun
    · exact congrArg SearchNode.cost (hself _ _ k)
  · obtain ⟨rfl, -⟩ := Prod.mk.inj (hr.symm.trans heq)
    have hchange : Change c s v { s.node v with status := .deadEnd } s.frontier todo busy := by
      refine ⟨hv, nofun, id, .inl, fun _ => rfl, fun _ hno => absurd rfl hno, fun hy _ => ?_,
        fun hsink => absurd hsink (ne_sink_of_stateOf? hx), fun hno => absurd rfl hno, ?_,
        fun hseen => absurd hstatus hseen, nofun, fun hexp => absurd hexp hno, nofun, h.valid,
        nofun, fun x hx _ _ => hx, fun x hx => .inl hx⟩
      · obtain rfl := Option.some.inj (hx.symm.trans hy)
        exact hdead
      · rintro rfl
        exact h.root_cost
    refine ⟨h.change hchange k, fun w hw => node_set_ne hw _ _ k, ?_, .inl ?_⟩
    · rw [hself]
      nofun
    · rw [hself]
  · cases hr.symm.trans heq

/-- A walk to the source of an edge goes on along the edge. -/
theorem walk_target (h : Underway c s todo busy) {e : Nat} {edge : Edge}
    (he : s.edges[e]? = some edge) (hsource : s.Met edge.source) : ∃ es,
      s.graph.Walk root es edge.target ∧
      Cost.add (s.node edge.source).cost edge.cost = min Cost.top (s.graph.cost es) := by
  obtain ⟨es, hes, hcost⟩ := h.walk hsource
  have hedge : s.graph.edges[e]? = some edge := he
  refine ⟨es ++ [e], Graph.walk_concat_iff.mpr ⟨edge, hedge, rfl, hes⟩, ?_⟩
  rw [Graph.cost_concat hedge, ← Cost.add_min_top (hes.cost_nonneg fun he => h.recorded.cost_nonneg he)
    (h.recorded.cost_nonneg he), Int.min_comm, hcost, Int.min_comm]

/-- An edge that offers no lower cost needs no further look. -/
theorem keep {e : Nat} {edge : Edge} (h : Underway c s (e :: todo) busy)
    (he : s.edges[e]? = some edge) (hseen : (s.node edge.target).status ≠ .unseen)
    (hkept : (s.node edge.target).status = .deadEnd ∨
      (s.node edge.target).cost ≤ Cost.add (s.node edge.source).cost edge.cost ∨
      (s.node edge.target).status = .closed ∧ (c.reopen = false ∨ edge.target = sink)) :
    Underway c s todo busy := by
  refine h.done fun {edge'} he' _ => ?_
  obtain rfl := Option.some.inj (he.symm.trans he')
  refine ⟨hseen, ?_⟩
  rcases hkept with hdead | hle | hclosed
  · exact .inl hdead
  · exact .inr (.inr hle)
  · exact .inr (.inl hclosed)

/-- The target of the edge in front waits again, at the lower cost that the edge offers. -/
theorem lower {e : Nat} {edge : Edge} (h : Underway c s (e :: todo) busy)
    (he : s.edges[e]? = some edge) (hmet : s.Met edge.source)
    (hlt : Cost.add (s.node edge.source).cost edge.cost < (s.node edge.target).cost)
    (hstatus : (s.node edge.target).status = .waiting ∨
      (s.node edge.target).status = .closed ∧ c.reopen = true ∧ edge.target ≠ sink)
    (k : Statistics) :
    Underway c (({ s with statistics := k } : Search).enqueue edge.target { s.node edge.target with
        cost := Cost.add (s.node edge.source).cost edge.cost, parent := some e }) todo busy ∧
    (({ s with statistics := k } : Search).enqueue edge.target { s.node edge.target with
        cost := Cost.add (s.node edge.source).cost edge.cost, parent := some e }).node edge.source =
      s.node edge.source := by
  have htarget := h.recorded.target_lt he
  have hge := Cost.le_add (h.cost_le_top hmet) (h.recorded.cost_nonneg he)
  have hne : edge.source ≠ edge.target := by
    intro hst
    rw [← hst] at hlt
    omega
  have hmet' : s.Met edge.target := hstatus.imp id And.left
  have hchange := h.change_waiting (v := edge.target) (n := { s.node edge.target with
      cost := Cost.add (s.node edge.source).cost edge.cost, parent := some e }) htarget rfl
    (fun _ => rfl) (fun hx => h.estimate hx hmet') (fun hsink => hsink ▸ h.sink_estimate)
    (h.walk_target he hmet) (fun hroot => Int.le_trans (Int.le_of_lt (hroot ▸ hlt)) h.root_cost)
    (fun _ => ⟨by rcases hstatus with hw | hw <;> simp [hw], Int.le_of_lt hlt, fun hclosed => by
      rcases hstatus with hw | hw
      · rw [hclosed] at hw
        cases hw
      · exact hw.2⟩)
  have hsource := fun n o => node_set_ne (s := s) hne n o k
  have hself := node_set_self htarget
  rw [enqueue_eq]
  refine ⟨(h.change hchange k).done fun {edge'} he' _ => ?_, hsource _ _⟩
  obtain rfl := Option.some.inj (he.symm.trans he')
  refine ⟨?_, .inr (.inr ?_)⟩
  · rw [hself]
    nofun
  · apply Int.le_of_eq
    rw [hself, hsource]

/-- The edge in front is tried. Its source keeps its cost. -/
theorem relax {e : Nat} {edge : Edge} (h : Underway c s (e :: todo) busy)
    (hroot : (s.node root).status ≠ .unseen) (he : s.edges[e]? = some edge)
    (hsource : (s.node edge.source).status = .closed)
    (hr : s.relax c edge.target (Cost.add (s.node edge.source).cost edge.cost) e = (s', none)) :
    Underway c s' todo busy ∧ s'.node edge.source = s.node edge.source := by
  have hmet : s.Met edge.source := .inr hsource
  rcases relax_cases c s edge.target (Cost.add (s.node edge.source).cost edge.cost) e with
    ⟨heq, hseen, hkept⟩ | ⟨k, heq, hlt, hstatus⟩ | ⟨hstatus, heq⟩
  · obtain ⟨rfl, -⟩ := Prod.mk.inj (hr.symm.trans heq)
    exact ⟨h.keep he hseen hkept, rfl⟩
  · obtain ⟨rfl, -⟩ := Prod.mk.inj (hr.symm.trans heq)
    exact h.lower he hmet hlt hstatus k
  · rw [heq] at hr
    have hne : edge.source ≠ edge.target := by
      intro hst
      rw [← hst, hsource] at hstatus
      cases hstatus
    obtain ⟨hs', hother, hseen, hcost⟩ := h.meet (h.recorded.target_lt he) hstatus
      (h.walk_target he hmet) (fun hroot' => absurd hstatus (hroot' ▸ hroot)) hr
    have hedges : s'.edges = s.edges := by
      have := SameRecord.open? c s edge.target
        (Cost.add (s.node edge.source).cost edge.cost) (some e)
      rw [hr] at this
      exact this.edges
    refine ⟨hs'.done fun {edge'} he' _ => ?_, hother _ hne⟩
    rw [hedges] at he'
    obtain rfl := Option.some.inj (he.symm.trans he')
    rw [← hother _ hne] at hcost
    exact ⟨hseen, hcost.imp id fun hcost => .inr (Int.le_of_eq hcost)⟩

/-- The edges of a closed node are tried again. -/
theorem relaxAgain {es : List Nat} (h : Underway c s es busy)
    (hroot : (s.node root).status ≠ .unseen) (hv : (s.node v).status = .closed)
    (hcost : (s.node v).cost = cost)
    (hes : ∀ e ∈ es, ∀ edge, s.edges[e]? = some edge → edge.source = v)
    (hr : relaxAgain c cost es s = (s', none)) :
    Underway c s' [] busy ∧ s'.node v = s.node v := by
  induction es generalizing s with
  | nil =>
    obtain ⟨rfl, -⟩ := Prod.mk.inj hr
    exact ⟨h, rfl⟩
  | cons e es ih =>
    unfold Search.relaxAgain at hr
    cases he : s.edges[e]? with
    | none =>
      rw [he] at hr
      refine ih (h.done fun he' => ?_) hroot hv hcost
        (fun e' he' => hes e' (List.mem_cons_of_mem _ he')) hr
      rw [he] at he'
      cases he'
    | some edge =>
      simp only [he] at hr
      obtain rfl := hes e (List.mem_cons_self ..) edge he
      have hsame := SameRecord.relax c s edge.target (Cost.add cost edge.cost) e
      rcases hrelax : s.relax c edge.target (Cost.add cost edge.cost) e with ⟨s₁, fault⟩
      rw [hrelax] at hr hsame
      cases fault with
      | some fault => cases hr
      | none =>
        rw [← hcost] at hrelax
        obtain ⟨h₁, hnode⟩ := h.relax hroot he hv hrelax
        obtain ⟨h₂, hnode'⟩ := ih h₁ (hsame.seen hroot) (hnode ▸ hv) (hnode ▸ hcost)
          (fun e' he' edge' hedge => hes e' (List.mem_cons_of_mem _ he') edge' (hsame.edges ▸ hedge))
          hr
        exact ⟨h₂, hnode'.trans hnode⟩

/-- A further edge waits to be tried. -/
theorem record {e : Nat} (h : Underway c s todo busy) (hs : Recorded c s') (hg : Grows s s')
    (hfrontier : s'.frontier = s.frontier) (hnode : ∀ w, s'.node w = s.node w)
    (hedge : ∀ {e' : Nat} {edge : Edge}, s'.edges[e']? = some edge →
      s.edges[e']? = some edge ∨ e' = e) : Underway c s' (e :: todo) busy where
  recorded := hs
  valid := hfrontier ▸ h.valid
  waits hv := by
    rw [hfrontier]
    rw [hnode] at hv ⊢
    exact h.waits hv
  queued x hx := by
    rw [hfrontier] at hx
    rw [hnode]
    exact h.queued x hx
  estimate hx hm := by
    rw [Met, hnode] at hm
    rw [hnode]
    exact h.estimate (h.recorded.state_of_seen hg (Met.ne_unseen hm) hx) hm
  deadEnd hx hdead := by
    rw [hnode] at hdead
    exact h.deadEnd (h.recorded.state_of_seen hg (by simp [hdead]) hx) hdead
  sink_estimate := hnode sink ▸ h.sink_estimate
  sink_alive := hnode sink ▸ h.sink_alive
  walk hm := by
    rw [Met, hnode] at hm
    obtain ⟨es, hes, hcost⟩ := h.walk hm
    obtain ⟨hes', hcost'⟩ : s'.graph.Walk _ _ _ ∧ _ := hes.mono hg.edge
    exact ⟨es, hes', by rw [hnode, hcost, hcost']⟩
  root_cost := hnode root ▸ h.root_cost
  tried he hnot hclosed := by
    rw [List.mem_cons, not_or] at hnot
    rw [hnode] at hclosed
    rw [Tried, hnode, hnode]
    exact h.tried ((hedge he).resolve_right hnot.1) hnot.2 hclosed
  met hv := by
    rw [Met, hnode]
    exact h.met (hnode _ ▸ hv)
  expanded hv hne hbusy := by
    rw [hnode] at hv ⊢
    exact h.expanded hv hne hbusy
  complete hx hv hbusy := by
    rw [hnode] at hv
    exact (h.complete (h.recorded.state_of_seen hg (h.met hv).ne_unseen hx) hv hbusy).grows hg

/-- The edges of some operators are recorded and tried. -/
theorem generate {ops : List Nat} {goal goal' : Bool} (h : Underway c s [] busy)
    (hroot : (s.node root).status ≠ .unseen)
    (hgen : Generating c v x ops s) (hv : (s.node v).status = .closed)
    (hcost : (s.node v).cost = cost)
    (hr : generate c v cost x ops s goal = (s', goal', none)) :
    Underway c s' [] busy ∧ s'.node v = s.node v := by
  induction ops generalizing s goal with
  | nil =>
    obtain ⟨rfl, -⟩ := Prod.mk.inj hr
    exact ⟨h, rfl⟩
  | cons op ops ih =>
    obtain ⟨goal₁, heq⟩ := generate_cons c v cost x op ops s goal
    obtain ⟨hgen', hg', -, -⟩ := hgen.step (Cost.add cost (c.task.operator op).cost)
    obtain ⟨hs, hg, hfrontier, hnode, hedge⟩ := hgen.successor
    rw [heq] at hr
    generalize successor c v x s op = r at hr hgen' hg' hs hg hfrontier hnode hedge
    obtain ⟨s₁, target, e⟩ := r
    have h₁ := h.record (e := e) hs hg hfrontier hnode fun he =>
      ((hedge _ _).mp he).imp id And.left
    have he : s₁.edges[e]? = some ⟨v, target, .operator op, (c.task.operator op).cost⟩ :=
      (hedge _ _).mpr (.inr ⟨rfl, rfl⟩)
    rcases hrelax : s₁.relax c target (Cost.add cost (c.task.operator op).cost) e with ⟨s₂, fault⟩
    simp only [hrelax] at hr hgen' hg'
    cases fault with
    | some fault => cases hr
    | none =>
      rw [← hcost, ← hnode v] at hrelax
      obtain ⟨h₂, hnode₂⟩ := h₁.relax (hg.seen hroot) he ((hnode v).symm ▸ hv) hrelax
      have hnode' : s₂.node v = s.node v := hnode₂.trans (hnode v)
      obtain ⟨h₃, hnode₃⟩ := ih h₂ (hg'.seen hroot) hgen' (hnode' ▸ hv) (hnode' ▸ hcost) hr
      exact ⟨h₃, hnode₃.trans hnode'⟩

/-- The edge of a goal to the sink is recorded and tried. -/
theorem recordGoal (h : Underway c s [] busy)
    (hroot : (s.node root).status ≠ .unseen) (hx : s.stateOf? v = some x)
    (hexp : (s.node v).expanded = true) (hgoal : c.task.isGoal x = true)
    (hnew : ¬s.HasEdge v .goal) (hv : (s.node v).status = .closed)
    (hcost : (s.node v).cost = cost) (hr : recordGoal c v cost s = (s', none)) :
    Underway c s' [] busy ∧ s'.node v = s.node v := by
  have hs := h.recorded.record ⟨v, sink, .goal, 0⟩ ⟨x, hx, hgoal, rfl, rfl⟩ hexp hnew
  have h₁ : Underway c (s.record ⟨v, sink, .goal, 0⟩).1 [s.edges.size] busy :=
    h.record hs (grows_record s _) rfl (fun _ => rfl) fun he =>
      ((edges_push rfl).mp he).imp id And.left
  have he : (s.record ⟨v, sink, .goal, 0⟩).1.edges[s.edges.size]? = some ⟨v, sink, .goal, 0⟩ :=
    (edges_push rfl).mpr (.inr ⟨rfl, rfl⟩)
  have hr' : (s.record ⟨v, sink, .goal, 0⟩).1.relax c sink (Cost.add (s.node v).cost 0)
      s.edges.size = (s', none) := by
    rw [Cost.add_zero (h.cost_nonneg (.inr hv)) (h.cost_le_top (.inr hv)), hcost]
    exact hr
  exact h₁.relax hroot he hv hr'

theorem weaken (h : Underway c s [] none) (todo : List Nat) (busy : Option Nat) :
    Underway c s todo busy :=
  { h with
    tried := fun he _ => h.tried he List.not_mem_nil
    expanded := fun hv hne _ => h.expanded hv hne (Option.some_ne_none _).symm
    complete := fun hx hv _ => h.complete hx hv (Option.some_ne_none _).symm }

/-- A node that is expanded and complete needs no further care. -/
theorem finish (h : Underway c s [] (some v)) (hexp : v ≠ sink → (s.node v).expanded = true)
    (hcomplete : ∀ x, s.stateOf? v = some x → Complete c s v x) : Underway c s [] none :=
  { h with
    expanded := fun {w} hw hne _ => by
      by_cases hwv : w = v
      · exact hwv ▸ hexp (hwv ▸ hne)
      · exact h.expanded hw hne fun heq => hwv (Option.some.inj heq).symm
    complete := fun {w} {x} hx hw _ => by
      by_cases hwv : w = v
      · exact hwv ▸ hcomplete x (hwv ▸ hx)
      · exact h.complete hx hw fun heq => hwv (Option.some.inj heq).symm }

theorem mark (h : Underway c s [] (some v)) (hclosed : (s.node v).status = .closed)
    (hv : v ≠ sink) (hno : ∀ label, ¬s.HasEdge v label) :
    Underway c (s.markExpanded v) [] (some v) := by
  have hmet : s.Met v := .inr hclosed
  have halive : (s.node v).status ≠ .deadEnd := by simp [hclosed]
  have hchange : Change c s v { s.node v with expanded := true } s.frontier [] (some v) := by
    refine ⟨lt_nodes_of_status hmet.ne_unseen, hmet.ne_unseen, fun _ => rfl, fun _ => .inr rfl,
      fun _ => rfl, fun hx _ => h.estimate hx hmet, fun _ hdead => absurd hdead halive,
      fun hsink => absurd hsink hv, fun _ => h.walk hmet, ?_,
      fun _ => ⟨halive, Int.le_refl _, .inl⟩,
      fun _ e edge he hsource => absurd ⟨e, edge, he, hsource, rfl⟩ (hno _), fun _ => halive,
      fun _ => rfl, h.valid, fun hw => ?_, fun x hx _ _ => hx, fun x hx => .inl hx⟩
    · rintro rfl
      exact h.root_cost
    · simp only [hclosed] at hw
      cases hw
  exact h.change hchange s.statistics

end Underway

/-- A search with a node taken out of its open list. -/
def take (s : Search) (v : Nat) (o : OpenList) : Search :=
  { s with frontier := o, nodes := s.nodes.setIfInBounds v { s.node v with status := .closed } }

theorem sameRecord_take (s : Search) (v : Nat) (o : OpenList) (f : Statistics → Statistics) :
    SameRecord s ((s.take v o).count f) := by
  refine SameRecord.setNode (s := s) (v := v) ?_ ?_ _ _
  · exact id
  · exact fun _ => nofun

/-- The node waits with the least sum of cost and estimate, and the list keeps all other waiting nodes. -/
structure Taken (s : Search) (v : Nat) (o : OpenList) : Prop where
  waiting : (s.node v).status = .waiting
  least : ∀ {w : Nat}, (s.node w).status = .waiting →
    Cost.add (s.node v).cost (s.node v).estimate ≤ Cost.add (s.node w).cost (s.node w).estimate
  valid : o.queue.Valid costThenNumber
  subset : ∀ x ∈ o.entries, x ∈ s.frontier.entries
  kept : ∀ x ∈ s.frontier.entries, s.isCurrent x.2.node x.2.cost = true → x.2.node ≠ v →
    x ∈ o.entries

namespace Taken

variable {o : OpenList}

theorem sameRecord (_ : Taken s v o) (f : Statistics → Statistics) :
    SameRecord s ((s.take v o).count f) :=
  sameRecord_take s v o f

theorem node_take (h : Taken s v o) (f : Statistics → Statistics) :
    ((s.take v o).count f).node v = { s.node v with status := .closed } :=
  node_set_self (lt_nodes_of_status (by simp [h.waiting])) _ o _

theorem node_take_ne (_ : Taken s v o) (hw : w ≠ v) (f : Statistics → Statistics) :
    ((s.take v o).count f).node w = s.node w :=
  node_set_ne hw _ o _

end Taken

theorem mem_outgoing_iff {g : Graph} {e : Nat} : e ∈ g.outgoing v ↔
    ∃ edge, g.edges[e]? = some edge ∧ edge.source = v := by
  unfold Graph.outgoing
  rw [List.mem_filter, List.mem_range]
  constructor
  · rintro ⟨hlt, hany⟩
    rw [Array.getElem?_eq_getElem hlt] at hany
    exact ⟨_, Array.getElem?_eq_getElem hlt, by simpa using hany⟩
  · rintro ⟨edge, he, hsource⟩
    exact ⟨(Array.getElem?_eq_some_iff.mp he).1, by simp [he, hsource]⟩

namespace Underway

/-- A node that was expanded before tries its edges again. -/
theorem expand_again {outcome : StepOutcome} (h : Underway c s (s.graph.outgoing v) (some v))
    (hroot : (s.node root).status ≠ .unseen)
    (hclosed : (s.node v).status = .closed) (hexp : (s.node v).expanded = true)
    (hcomplete : ∀ x, s.stateOf? v = some x → Complete c s v x)
    (hr : s.expand c v (s.node v).cost = (s', outcome)) (hok : ∀ fault, outcome ≠ .failed fault) :
    Underway c s' [] none := by
  have hg := (expand_recorded h.recorded v (s.node v).cost).2.1
  rw [hr] at hg
  unfold Search.expand at hr
  rw [if_pos hexp] at hr
  rcases hrelax : Search.relaxAgain c (s.node v).cost (s.graph.outgoing v) s with ⟨s₁, fault⟩
  rw [hrelax] at hr
  cases fault with
  | some fault => exact absurd (Prod.mk.inj hr).2.symm (hok fault)
  | none =>
    obtain ⟨rfl, -⟩ := Prod.mk.inj hr
    obtain ⟨h₁, -⟩ := h.relaxAgain hroot hclosed rfl (fun e he edge hedge => by
      obtain ⟨edge', hedge', hsource⟩ := mem_outgoing_iff.mp he
      obtain rfl := Option.some.inj (hedge.symm.trans hedge')
      exact hsource) hrelax
    refine h₁.finish (fun _ => hg.expanded hexp) fun x hx => ?_
    exact (hcomplete x (h.recorded.state_of_seen hg (by simp [hclosed]) hx)).grows hg

/-- A node is expanded for the first time. It has no edges yet. -/
theorem expand_first {outcome : StepOutcome} (h : Underway c s (s.graph.outgoing v) (some v))
    (hroot : (s.node root).status ≠ .unseen)
    (hclosed : (s.node v).status = .closed) (hv : v ≠ sink) (hexp : ¬(s.node v).expanded = true)
    (hr : s.expand c v (s.node v).cost = (s', outcome)) (hok : ∀ fault, outcome ≠ .failed fault) :
    Underway c s' [] none := by
  obtain ⟨-, hg, hall⟩ := expand_recorded h.recorded v (s.node v).cost
  rw [hr] at hg hall
  obtain ⟨x, hx⟩ := exists_stateOf? h.recorded.size_eq
    (lt_nodes_of_status (by simp [hclosed])) hv h.recorded.root_state
  have hno := h.recorded.not_hasEdge hexp
  have h₀ : Underway c s [] (some v) :=
    { h with
      tried := fun he _ => h.tried he fun hmem => by
        obtain ⟨edge, hedge, hsource⟩ := mem_outgoing_iff.mp hmem
        exact hno _ ⟨_, edge, hedge, hsource, rfl⟩ }
  have h₁ := h₀.mark hclosed hv hno
  have hmark := (markExpanded_spec (lt_nodes_of_stateOf? h.recorded.size_eq hx)).1
  have hgen := h.recorded.generating hexp hx
  have hnode : ((s.markExpanded v).node v).status = .closed ∧
      ((s.markExpanded v).node v).cost = (s.node v).cost := by
    rw [markExpanded, node_set_self (lt_nodes_of_stateOf? h.recorded.size_eq hx)]
    exact ⟨hclosed, rfl⟩
  have hno' : ∀ label, ¬(s.markExpanded v).HasEdge v label := hno
  rw [expand_new hexp hx] at hr
  generalize s.markExpanded v = s₁ at h₁ hmark hgen hnode hr hno'
  obtain ⟨-, hg₂, hgoal₂, -⟩ := hgen.generate (s.node v).cost false
  have hdone : ∀ {s₂}, Underway c s₂ [] (some v) → s₂ = s' → Underway c s' [] none := by
    rintro s₂ h₂ rfl
    obtain ⟨hexp₂, hall⟩ := hall hok (by simpa using hexp) x hx
    refine h₂.finish (fun _ => hexp₂) fun y hy => ?_
    have hy' := h.recorded.state_of_seen hg (by simp [hclosed]) hy
    exact Option.some.inj (hx.symm.trans hy') ▸ hall
  rcases hgenerate : Search.generate c v (s.node v).cost x (c.task.applicable x) s₁ false with
    ⟨s₂, goal, fault⟩
  rw [hgenerate] at hr hg₂ hgoal₂
  cases fault with
  | some fault => exact absurd (Prod.mk.inj hr).2.symm (hok fault)
  | none =>
    obtain ⟨h₂, hnode₂⟩ := h₁.generate (hmark.seen hroot) hgen hnode.1 hnode.2 hgenerate
    by_cases hgoal : c.task.isGoal x = true
    · simp only [hgoal, if_true] at hr
      rcases hrecord : Search.recordGoal c v (s.node v).cost s₂ with ⟨s₃, fault⟩
      rw [hrecord] at hr
      cases fault with
      | some fault => exact absurd (Prod.mk.inj hr).2.symm (hok fault)
      | none =>
        obtain ⟨h₃, -⟩ := h₂.recordGoal (hg₂.seen (hmark.seen hroot)) (hg₂.state hgen.state)
          (hg₂.expanded hgen.expanded) hgoal (fun hv => hno' _ (hgoal₂ hv)) (hnode₂ ▸ hnode.1)
          (hnode₂ ▸ hnode.2) hrecord
        exact hdone h₃ (Prod.mk.inj hr).1
    · simp only [if_neg hgoal] at hr
      exact hdone h₂ (Prod.mk.inj hr).1

/-- A node that was just closed is expanded. -/
theorem expand {outcome : StepOutcome} (h : Underway c s (s.graph.outgoing v) (some v))
    (hroot : (s.node root).status ≠ .unseen)
    (hclosed : (s.node v).status = .closed) (hv : v ≠ sink)
    (hcomplete : ∀ x, s.stateOf? v = some x → (s.node v).expanded = true → Complete c s v x)
    (hr : s.expand c v (s.node v).cost = (s', outcome)) (hok : ∀ fault, outcome ≠ .failed fault) :
    Underway c s' [] none := by
  by_cases hexp : (s.node v).expanded = true
  · exact h.expand_again hroot hclosed hexp (fun x hx => hcomplete x hx hexp) hr hok
  · exact h.expand_first hroot hclosed hv hexp hr hok

/-- A node is taken out of the open list. All edges out of it are to be tried. -/
theorem close {o : OpenList} (h : Underway c s [] none) (hv : Taken s v o)
    (f : Statistics → Statistics) :
    Underway c ((s.take v o).count f) (s.graph.outgoing v) (some v) := by
  have hmet : s.Met v := .inl hv.waiting
  have halive : (s.node v).status ≠ .deadEnd := by simp [hv.waiting]
  have hchange : Change c s v { s.node v with status := .closed } o (s.graph.outgoing v)
      (some v) := by
    refine ⟨lt_nodes_of_status hmet.ne_unseen, nofun, id, .inl, fun _ => rfl,
      fun hx _ => h.estimate hx hmet, fun _ => nofun, fun hsink => ⟨hsink ▸ h.sink_estimate, nofun⟩,
      fun _ => h.walk hmet, ?_, fun _ => ⟨halive, Int.le_refl _, fun _ => .inl rfl⟩,
      fun _ e edge he hsource => mem_outgoing_iff.mpr ⟨edge, he, hsource⟩, fun _ => nofun,
      fun _ => rfl, hv.valid, nofun, fun x hx hne hcur => hv.kept x hx hcur hne,
      fun x hx => .inl (hv.subset x hx)⟩
    rintro rfl
    exact h.root_cost
  exact (h.weaken _ _).change hchange _

/-- If all entries of the open list are outdated, no node waits. -/
theorem not_waiting (h : Underway c s [] none)
    (hstale : ∀ x ∈ s.frontier.entries, s.isCurrent x.2.node x.2.cost = false) (v : Nat) :
    (s.node v).status ≠ .waiting := by
  intro hv
  obtain ⟨number, hmem⟩ := h.waits hv
  cases (hstale _ hmem).symm.trans (isCurrent_iff.mpr ⟨hv, rfl⟩)

/-- What the open list gives: nothing if no node waits, or else the first node. -/
theorem pop_cases (h : Underway c s [] none) :
    (∃ o, s.frontier.pop? s.isCurrent = (none, o) ∧ OpenList.Settled s.isCurrent s.frontier o ∧
      ∀ x ∈ s.frontier.entries, s.isCurrent x.2.node x.2.cost = false) ∨
    ∃ v number o, Taken s v o ∧ s.frontier.pop? s.isCurrent =
      (some (v, Cost.add (s.node v).cost (s.node v).estimate, number), o) := by
  rcases OpenList.pop?_spec h.valid with ⟨o, hpop, ho, hnone⟩ |
    ⟨v, estimate, number, cost, o, hpop, hmem, hcur, hmin, hvalid, hsubset, hkept⟩
  · exact .inl ⟨o, hpop, ho, hnone⟩
  · obtain ⟨hv, rfl⟩ := isCurrent_iff.mp hcur
    obtain rfl : estimate = Cost.add (s.node v).cost (s.node v).estimate := (h.queued _ hmem).1
    refine .inr ⟨v, number, o, ⟨hv, fun {w} hw => ?_, hvalid, hsubset, hkept⟩, hpop⟩
    obtain ⟨number', hmem'⟩ := h.waits hw
    exact hmin _ hmem' (isCurrent_iff.mpr ⟨hw, rfl⟩)

/-- What a step can do: it refuses to go on, finds no waiting node, or takes the first one. -/
theorem step_cases (h : Underway c s [] none) :
    (c.stateLimit.any (· ≤ s.table.size) = true ∧ s.step c = (s, .full)) ∨
    (∃ o, OpenList.Settled s.isCurrent s.frontier o ∧
      (∀ x ∈ s.frontier.entries, s.isCurrent x.2.node x.2.cost = false) ∧
      s.step c = ({ s with frontier := o }, .exhausted)) ∨
    ∃ v o, Taken s v o ∧ ((v = sink ∧ s.step c = (s.take v o, .solved (s.node v).cost)) ∨
      (v ≠ sink ∧ s.step c =
        ((s.take v o).count fun k => { k with expanded := k.expanded + 1 }).expand c v
          (s.node v).cost)) := by
  unfold Search.step
  split
  · rename_i hlimit
    exact .inl ⟨hlimit, rfl⟩
  · rcases h.pop_cases with ⟨o, hpop, ho, hnone⟩ | ⟨v, number, o, hv, hpop⟩
    · rw [hpop]
      exact .inr (.inl ⟨o, ho, hnone, rfl⟩)
    · rw [hpop]
      refine .inr (.inr ⟨v, o, hv, ?_⟩)
      by_cases hsink : v = sink
      · exact .inl ⟨hsink, if_pos hsink⟩
      · exact .inr ⟨hsink, if_neg hsink⟩

/-- A step that does not fail. -/
theorem step (h : Underway c s [] none)
    (hroot : (s.node root).status ≠ .unseen) (hok : ∀ fault, (s.step c).2 ≠ .failed fault) :
    Underway c (s.step c).1 [] none := by
  rcases h.step_cases with ⟨-, heq⟩ | ⟨o, ho, -, heq⟩ | ⟨v, o, hv, ⟨hsink, heq⟩ | ⟨hsink, heq⟩⟩
  · rw [heq]
    exact h
  · rw [heq]
    exact h.settle ho
  · rw [heq]
    refine finish (v := v) { h.close hv id with
      tried := fun {e} {edge} he _ => (h.close hv id).tried he fun hmem => ?_ }
      (fun hne => absurd hsink hne) fun x hx => absurd hsink (ne_sink_of_stateOf? hx)
    obtain ⟨edge', hedge, hsource⟩ := mem_outgoing_iff.mp hmem
    obtain ⟨x, hx, -⟩ := h.recorded.meant hedge
    exact ne_sink_of_stateOf? hx (hsource.trans hsink)
  · rw [heq] at hok
    rw [heq]
    have hnode := hv.node_take fun k => { k with expanded := k.expanded + 1 }
    have hsame := hv.sameRecord fun k => { k with expanded := k.expanded + 1 }
    refine (h.close hv _).expand (hsame.seen hroot) (by rw [hnode]) hsink (fun x hx hexp => ?_)
      (by rw [hnode]) hok
    rw [hsame.stateOf?] at hx
    rw [hnode] at hexp
    exact (h.complete hx hexp (Option.some_ne_none v).symm).grows hsame.grows

/-- A search whose root is met at no cost. -/
theorem start (h : start c = .ok s) : Underway c s [] none ∧ (s.node root).status ≠ .unseen := by
  have hseed : Underway c (seed c) [] none := by
    have hmet : ∀ w, ¬(seed c).Met w := fun w hw => hw.ne_unseen (by rw [seed_node])
    refine ⟨seed_recorded c, PriorityQueue.valid_empty, fun {w} hw => absurd (.inl hw) (hmet w),
      fun x hx => absurd hx List.not_mem_nil, fun _ hm => absurd hm (hmet _), fun _ hdead => ?_, rfl,
      nofun, fun hm => absurd hm (hmet _), Int.le_refl 0, fun he => ?_, fun hexp => ?_,
      fun {w} hw => absurd (.inr hw) (hmet w), fun _ hexp => ?_⟩
    · rw [seed_node] at hdead
      cases hdead
    · simp [seed] at he
    · rw [seed_node] at hexp
      cases hexp
    · rw [seed_node] at hexp
      cases hexp
  obtain ⟨hs, -, hseen, -⟩ := hseed.meet (v := root) (show 0 < 2 by omega) rfl
    ⟨[], .nil root, rfl⟩ (fun _ => Int.le_refl 0) (start_eq_ok_iff.mp h)
  exact ⟨hs, hseen⟩

end Underway

/-- A search that was started and went on without a failure. -/
inductive Faultless (c : SearchSetting) : Search → Prop
  | start {s : Search} : start c = .ok s → Faultless c s
  | step {s : Search} : Faultless c s → (∀ fault, (s.step c).2 ≠ .failed fault) →
      Faultless c (s.step c).1
  | leastEstimate {s : Search} : Faultless c s → Faultless c s.leastEstimate?.2

theorem Faultless.underway (h : Faultless c s) :
    Underway c s [] none ∧ (s.node root).status ≠ .unseen := by
  induction h with
  | start h => exact Underway.start h
  | step _ hok ih =>
    exact ⟨ih.1.step ih.2 hok, (step_recorded ih.1.recorded).2.seen ih.2⟩
  | leastEstimate _ ih => exact ⟨ih.1.settle (OpenList.least?_spec ih.1.valid).1, ih.2⟩

/-- The same where closed nodes are opened again, so that each closed node has a cost that no edge into
it undercuts. -/
structure Progress (c : SearchSetting) (s : Search) (todo : List Nat) (busy : Option Nat) : Prop
    extends Underway c s todo busy where
  reopen : c.reopen = true

theorem Faultless.progress (h : Faultless c s) (hreopen : c.reopen = true) :
    Progress c s [] none ∧ (s.node root).status ≠ .unseen :=
  ⟨⟨h.underway.1, hreopen⟩, h.underway.2⟩

end RankedPlans.Search
