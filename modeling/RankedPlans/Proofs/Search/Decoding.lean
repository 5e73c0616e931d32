import RankedPlans.Proofs.Cost
import RankedPlans.Proofs.Search.Recorded
import RankedPlans.Proofs.Symmetry.Group
import RankedPlans.Search.Decoding

/-! Plans of a search among representatives. While a walk is decoded, the trace takes the state that the
plan has reached to the state of the node that the walk has reached, so the operator that the trace takes
to an edge's operator is applicable and leads on to the edge's target. -/

namespace RankedPlans.Search

variable {c : SearchSetting} {s : Search} {g : SymmetryGroup} {v : Nat} {x : State}
  {trace es fs : List Nat}

theorem canonical_of_some (h : c.group = some g) (x : State) : c.canonical x = g.canonicalState x := by
  rw [SearchSetting.canonical, h]

theorem decodeFrom_operator {e op : Nat} {edge : Edge} (he : s.edges[e]? = some edge)
    (hlabel : edge.label = .operator op) (hx : s.stateOf? edge.source = some x) :
    decodeFrom c s g trace (e :: es) = g.unmapOperator trace op ::
      decodeFrom c s g (trace ++ (g.canonicalState (c.task.apply x op)).2) es := by
  obtain ⟨source, target, label, cost⟩ := edge
  obtain rfl : label = .operator op := hlabel
  rw [decodeFrom]
  simp only [he]
  rw [show s.stateOf? source = some x from hx]

theorem decodeFrom_goal {e : Nat} {edge : Edge} (he : s.edges[e]? = some edge)
    (hlabel : edge.label = .goal) : decodeFrom c s g trace (e :: es) = decodeFrom c s g trace es := by
  obtain ⟨source, target, label, cost⟩ := edge
  obtain rfl : label = .goal := hlabel
  rw [decodeFrom]
  simp only [he]

/-- The trace takes the state that a plan has reached to the state of a node. -/
structure Follows (c : SearchSetting) (s : Search) (g : SymmetryGroup) (trace : List Nat) (x : State)
    (v : Nat) : Prop where
  isState : c.task.IsState x
  valid : g.Valid trace
  state : s.stateOf? v = some (g.mapState trace x)

theorem Follows.start (h : Recorded c s) (hgroup : c.group = some g) :
    Follows c s g (g.canonicalState c.task.initial).2 c.task.initial root := by
  obtain ⟨hvalid, hstate⟩ := g.canonicalState_spec c.task.initial
  refine ⟨c.task.isState_initial, hvalid, ?_⟩
  rw [h.root_state, canonical_of_some hgroup, hstate]

/-- The operator that the trace takes to the operator of an edge leads from the state that the plan has
reached to one that the longer trace takes to the target. -/
theorem Follows.step (hf : Follows c s g trace x v) (hg : g.Sound c.task) {y : State} {op target : Nat}
    (hgroup : c.group = some g) (hy : s.stateOf? v = some y) (hop : op ∈ c.task.applicable y)
    (htarget : s.stateOf? target = some (c.canonical (c.task.apply y op)).1) :
    g.unmapOperator trace op ∈ c.task.applicable x ∧
    (c.task.operator (g.unmapOperator trace op)).cost = (c.task.operator op).cost ∧
    Follows c s g (trace ++ (g.canonicalState (c.task.apply y op)).2)
      (c.task.apply x (g.unmapOperator trace op)) target := by
  obtain ⟨hx, hvalid, hstate⟩ := hf
  obtain rfl := Option.some.inj (hstate.symm.trans hy)
  have hlt := (Task.mem_applicable_iff.mp hop).1
  obtain ⟨hreal, hmap⟩ := g.unmapOperator_spec hg hvalid hlt
  generalize g.unmapOperator trace op = real at hreal hmap
  subst hmap
  have happly := g.apply_mapState hg hvalid hx hreal
  obtain ⟨hmoved, hcanonical⟩ := g.canonicalState_spec (c.task.apply (g.mapState trace x)
    (g.mapOperator trace real))
  refine ⟨(g.mem_applicable_mapState hg hvalid hx hreal).mp hop,
    (g.cost_mapOperator hg hvalid hreal).symm, hx.apply real, hvalid.append hmoved, ?_⟩
  rw [htarget, canonical_of_some hgroup, hcanonical, g.mapState_append, ← happly]

/-- A walk to the sink decodes to operators that lead to a goal at the cost of the walk. -/
theorem Follows.run?_of_walk (h : Recorded c s) (hgroup : c.group = some g) (hg : g.Sound c.task)
    (hf : Follows c s g trace x v) (hes : s.graph.Walk v es sink) : ∃ final,
      c.task.run? x (decodeFrom c s g trace es) = some (final, s.graph.cost es) ∧
      c.task.isGoal final = true := by
  induction es generalizing v trace x with
  | nil =>
    obtain rfl := Graph.walk_nil_iff.mp hes
    cases hf.state
  | cons e es ih =>
    obtain ⟨edge, he, rfl, hrest⟩ := Graph.walk_cons_iff.mp hes
    obtain ⟨y, hy, hmeant⟩ := h.meant he
    rw [Graph.cost_cons he]
    cases hlabel : edge.label with
    | operator op =>
      rw [hlabel] at hmeant
      obtain ⟨hop, hcost, htarget⟩ := hmeant
      obtain ⟨happ, hprice, hnext⟩ := hf.step hg hgroup hy hop htarget
      obtain ⟨final, hrun, hgoal⟩ := ih hnext hrest
      rw [decodeFrom_operator he hlabel hy]
      exact ⟨final, Task.run?_cons_eq_some_iff.mpr ⟨happ, _, hrun, by rw [hcost, hprice]⟩, hgoal⟩
    | goal =>
      rw [hlabel] at hmeant
      obtain ⟨hgoal, hcost, htarget⟩ := hmeant
      rw [htarget] at hrest
      obtain rfl := h.walk_sink hrest
      obtain rfl := Option.some.inj (hf.state.symm.trans hy)
      rw [decodeFrom_goal he hlabel, hcost]
      exact ⟨x, rfl, (g.isGoal_mapState hg hf.valid hf.isState).mp hgoal⟩

/-- Walks to the sink that decode to the same operators are the same: a node has one edge for each
operator, and only the goal edge adds no operator. -/
theorem Follows.walk_unique (h : Recorded c s) (hgroup : c.group = some g) (hg : g.Sound c.task)
    (hf : Follows c s g trace x v) (hes : s.graph.Walk v es sink) (hfs : s.graph.Walk v fs sink)
    (heq : decodeFrom c s g trace es = decodeFrom c s g trace fs) : es = fs := by
  induction es generalizing v trace x fs with
  | nil =>
    obtain rfl := Graph.walk_nil_iff.mp hes
    exact (h.walk_sink hfs).symm
  | cons e es ih =>
    cases fs with
    | nil =>
      obtain rfl := Graph.walk_nil_iff.mp hfs
      cases hf.state
    | cons e' fs =>
      obtain ⟨edge, he, rfl, hrest⟩ := Graph.walk_cons_iff.mp hes
      obtain ⟨edge', he', hsource, hrest'⟩ := Graph.walk_cons_iff.mp hfs
      obtain ⟨y, hy, hmeant⟩ := h.meant he
      obtain ⟨y', hy', hmeant'⟩ := h.meant he'
      obtain rfl : y' = y := by
        rw [hsource] at hy'
        exact Option.some.inj (hy'.symm.trans hy)
      cases hlabel : edge.label with
      | operator op =>
        rw [hlabel] at hmeant
        cases hlabel' : edge'.label with
        | operator op' =>
          rw [hlabel'] at hmeant'
          rw [decodeFrom_operator he hlabel hy, decodeFrom_operator he' hlabel' hy'] at heq
          obtain ⟨hhead, htail⟩ := List.cons.inj heq
          obtain rfl := g.unmapOperator_injective hg hf.valid (Task.mem_applicable_iff.mp hmeant.1).1
            (Task.mem_applicable_iff.mp hmeant'.1).1 hhead
          obtain rfl := h.unique he he' hsource.symm (hlabel.trans hlabel'.symm)
          obtain rfl := Option.some.inj (he.symm.trans he')
          have hnext := (hf.step hg hgroup hy hmeant.1 hmeant.2.2).2.2
          rw [ih hnext hrest hrest' htail]
        | goal =>
          rw [hlabel'] at hmeant'
          rw [hmeant'.2.2] at hrest'
          obtain rfl := h.walk_sink hrest'
          rw [decodeFrom_operator he hlabel hy, decodeFrom_goal he' hlabel'] at heq
          cases heq
      | goal =>
        rw [hlabel] at hmeant
        rw [hmeant.2.2] at hrest
        obtain rfl := h.walk_sink hrest
        cases hlabel' : edge'.label with
        | operator op' =>
          rw [decodeFrom_goal he hlabel, decodeFrom_operator he' hlabel' hy'] at heq
          cases heq
        | goal =>
          rw [hlabel'] at hmeant'
          rw [hmeant'.2.2] at hrest'
          obtain rfl := h.walk_sink hrest'
          rw [h.unique he he' hsource.symm (hlabel.trans hlabel'.symm)]

/-- The stated cost of a plan is the cost of its walk, as far as costs reach. -/
theorem foldl_cost_of_walk (h : Recorded c s) {w : Nat} (hes : s.graph.Walk v es w) {total : Int}
    (htotal : 0 ≤ total) :
    es.foldl (fun total e => Cost.add total ((s.edges[e]?.map Edge.cost).getD 0)) (min Cost.top total) =
      min Cost.top (total + s.graph.cost es) := by
  induction es generalizing v total with
  | nil => simp
  | cons e es ih =>
    obtain ⟨edge, he, -, hrest⟩ := Graph.walk_cons_iff.mp hes
    have hcost := h.cost_nonneg he
    rw [List.foldl_cons, show s.edges[e]? = some edge from he, Option.map_some, Option.getD_some,
      Cost.add_min_top htotal hcost, ih hrest (by omega), Graph.cost_cons he, Int.add_assoc]

theorem decode_cost (h : Recorded c s) {w : Nat} (hes : s.graph.Walk v es w) :
    (s.decode c es).cost = min Cost.top (s.graph.cost es) := by
  have hfold := foldl_cost_of_walk h hes (Int.le_refl 0)
  rw [Int.zero_add] at hfold
  exact hfold

theorem decode_plan (hgroup : c.group = some g) (es : List Nat) :
    (s.decode c es).plan = decodeFrom c s g (g.canonicalState c.task.initial).2 es := by
  simp only [decode, hgroup]

theorem Recorded.planCost?_decode (h : Recorded c s) (hgroup : c.group = some g)
    (hg : g.Sound c.task) (hes : s.graph.Walk root es sink) :
    c.task.planCost? (s.decode c es).plan = some (s.graph.cost es) := by
  obtain ⟨final, hrun, hgoal⟩ := (Follows.start h hgroup).run?_of_walk h hgroup hg hes
  rw [decode_plan hgroup]
  exact Task.planCost?_eq_some_iff.mpr ⟨final, hrun, hgoal⟩

/-- Two switches that are alike, one of them on. -/
def twoSwitches : Task where
  vars := #[⟨"a", ["off", "on"]⟩, ⟨"b", ["off", "on"]⟩]
  operators := #[⟨"flip a", 1, [], [⟨0, 1⟩]⟩, ⟨"flip b", 1, [], [⟨1, 1⟩]⟩]
  initial := #[1, 0]
  goal := [⟨0, 1⟩, ⟨1, 1⟩]
  normalized := by decide +kernel
  faultless := by decide +kernel

end RankedPlans.Search
