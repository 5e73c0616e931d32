import Mathlib.Data.List.Perm.Subperm
import RankedPlans.Path.Sidetrack
import RankedPlans.Proofs.Graph.SpanningTree

/-! The paths of a tree of a graph. Every node that can be reached has one depth in the tree, which is
less than the number of nodes, so parent edges lead from it up to the root without a repetition, and
climbing from a node to one above it gives the tree edges between them. -/

namespace RankedPlans

/-- The tree edges that lead from one node down to another. -/
inductive ShortestPathTree.Path (g : Graph) (t : ShortestPathTree) (u : Nat) :
    List Nat → Nat → Prop
  | nil : Path g t u [] u
  | snoc {es : List Nat} {e v : Nat} {edge : Edge} : t.parent? v = some e → g.edges[e]? = some edge →
      Path g t u es edge.source → Path g t u (es ++ [e]) v

/-- The nodes that parent edges lead to from a node up to the root, one after the other. -/
inductive ShortestPathTree.Ascent (g : Graph) (t : ShortestPathTree) : Nat → List Nat → Prop
  | root : Ascent g t t.root [t.root]
  | step {v e : Nat} {edge : Edge} {nodes : List Nat} : t.parent? v = some e → g.edges[e]? = some edge →
      Ascent g t edge.source nodes → Ascent g t v (v :: nodes)

namespace Graph.IsSpanningTree

variable {g : Graph} {t : ShortestPathTree} {v k : Nat}

theorem depth_unique (ht : g.IsSpanningTree t) {k' : Nat} (h : ParentChain g t.root t.parent? k v)
    (h' : ParentChain g t.root t.parent? k' v) : k = k' := by
  induction h generalizing k' with
  | root =>
    cases h' with
    | root => rfl
    | step hp => rw [ht.root_parent] at hp; cases hp
  | step hp he _ ih =>
    cases h' with
    | root => rw [ht.root_parent] at hp; cases hp
    | step hp' he' h' =>
      obtain rfl := Option.some.inj (hp.symm.trans hp')
      obtain rfl := Option.some.inj (he.symm.trans he')
      rw [ih h']

/-- The nodes above a node have other depths, so the way up comes to none of them twice. -/
theorem exists_ascent (ht : g.IsSpanningTree t) (h : ParentChain g t.root t.parent? k v) :
    ∃ nodes, t.Ascent g v nodes ∧ nodes.length = k + 1 ∧ nodes.Nodup ∧
      ∀ x ∈ nodes, ∃ j ≤ k, ParentChain g t.root t.parent? j x := by
  induction h with
  | root => exact ⟨[t.root], .root, rfl, by simp, by simpa using .root⟩
  | @step k v e edge hp he h ih =>
    obtain ⟨nodes, hascent, hlen, hnd, hdepth⟩ := ih
    have hv : ParentChain g t.root t.parent? (k + 1) v := .step hp he h
    refine ⟨v :: nodes, .step hp he hascent, by simp [hlen], List.nodup_cons.mpr ⟨fun hmem => ?_, hnd⟩,
      List.forall_mem_cons.mpr ⟨⟨k + 1, Nat.le_refl _, hv⟩, fun x hx => ?_⟩⟩
    · obtain ⟨j, hj, hx⟩ := hdepth v hmem
      have := ht.depth_unique hv hx
      omega
    · obtain ⟨j, hj, hx⟩ := hdepth x hx
      exact ⟨j, by omega, hx⟩

theorem lt_of_chain (ht : g.IsSpanningTree t) (hg : g.Joined t.root) (h : ParentChain g t.root t.parent? k v) :
    v < g.nodes := by
  cases h with
  | root => exact hg.root_lt
  | step hp =>
    obtain ⟨edge, he, rfl⟩ := ht.parent hp
    exact hg.target_lt he

/-- A way up comes to each node at most once, so it is shorter than the number of nodes. -/
theorem depth_lt (ht : g.IsSpanningTree t) (hg : g.Joined t.root) (h : ParentChain g t.root t.parent? k v) :
    k < g.nodes := by
  obtain ⟨nodes, -, hlen, hnd, hdepth⟩ := ht.exists_ascent h
  have hsub : nodes ⊆ List.range g.nodes := fun x hx => by
    obtain ⟨j, -, hj⟩ := hdepth x hx
    exact List.mem_range.mpr (ht.lt_of_chain hg hj)
  have := (hnd.subperm hsub).length_le
  rw [List.length_range] at this
  omega

end Graph.IsSpanningTree

namespace Graph.IsShortestPathTree

variable {g : Graph} {t : ShortestPathTree} {v : Nat}

theorem source_of_parent (ht : g.IsShortestPathTree t) {e : Nat} {edge : Edge}
    (hp : t.parent? v = some e) (he : g.edges[e]? = some edge) : edge.target = v ∧
    ∃ d, t.distance? edge.source = some d ∧ t.distance? v = some (d + edge.cost) := by
  obtain ⟨edge', d, he', htar, hd, hv⟩ := ht.parent hp
  obtain rfl : edge = edge' := Option.some.inj (he.symm.trans he')
  exact ⟨htar, d, hd, hv⟩

theorem exists_ascent (ht : g.IsShortestPathTree t) {k : Nat} (h : ParentChain g t.root t.parent? k v) :
    ∃ nodes, t.Ascent g v nodes ∧ nodes.length = k + 1 ∧ nodes.Nodup ∧
      ∀ x ∈ nodes, ∃ j ≤ k, ParentChain g t.root t.parent? j x :=
  ht.isSpanningTree.exists_ascent h

end Graph.IsShortestPathTree

namespace ShortestPathTree.Path

variable {g : Graph} {t : ShortestPathTree} {u v w : Nat} {es fs : List Nat} {d : Int}

theorem walk (ht : g.IsShortestPathTree t) (h : t.Path g u es v) : g.Walk u es v := by
  induction h with
  | nil => exact .nil u
  | snoc hp he _ ih =>
    obtain ⟨rfl, -⟩ := ht.source_of_parent hp he
    exact Graph.walk_concat_iff.mpr ⟨_, he, rfl, ih⟩

theorem cost (ht : g.IsShortestPathTree t) (h : t.Path g u es v) (hu : t.distance? u = some d) :
    t.distance? v = some (d + g.cost es) := by
  induction h with
  | nil => simpa using hu
  | snoc hp he _ ih =>
    obtain ⟨-, d', hd', hv⟩ := ht.source_of_parent hp he
    rw [Graph.cost_concat he, hv, Option.some.inj (hd'.symm.trans ih), Int.add_assoc]

theorem depth (h : t.Path g u es v) {k : Nat} (hu : ParentChain g t.root t.parent? k u) :
    ParentChain g t.root t.parent? (k + es.length) v := by
  induction h with
  | nil => exact hu
  | snoc hp he _ ih =>
    rw [List.length_append, List.length_singleton, ← Nat.add_assoc]
    exact .step hp he ih

/-- Climbing far enough gives the edges of the path. -/
theorem climb (ht : g.IsSpanningTree t) {k : Nat} (hu : ParentChain g t.root t.parent? k u)
    (h : t.Path g u es v) {fuel : Nat} (hf : es.length ≤ fuel) (after : List Nat) :
    t.climb g u fuel v after = es ++ after := by
  induction h generalizing fuel after with
  | nil => cases fuel <;> simp [ShortestPathTree.climb]
  | @snoc es e v edge hp he h ih =>
    have hne : v ≠ u := by
      rintro rfl
      have := ht.depth_unique hu (h.snoc hp he |>.depth hu)
      simp at this
    rw [List.length_append, List.length_singleton] at hf
    obtain ⟨fuel, rfl⟩ : ∃ n, fuel = n + 1 := ⟨fuel - 1, by omega⟩
    simp only [ShortestPathTree.climb, hne, if_false, hp, he, Option.map_some, Option.getD_some]
    rw [ih (by omega), List.append_assoc, List.singleton_append]

end ShortestPathTree.Path

/-- The way up from a node comes to the nodes that tree paths lead down from. -/
theorem ShortestPathTree.Ascent.mem_iff {g : Graph} {t : ShortestPathTree} {u v : Nat} {nodes : List Nat}
    (ht : g.IsSpanningTree t) (h : t.Ascent g v nodes) : u ∈ nodes ↔ ∃ es, t.Path g u es v := by
  induction h with
  | root =>
    rw [List.mem_singleton]
    constructor
    · rintro rfl
      exact ⟨[], .nil⟩
    · rintro ⟨es, hes⟩
      cases hes with
      | nil => rfl
      | snoc hp => rw [ht.root_parent] at hp; cases hp
  | step hp he _ ih =>
    rw [List.mem_cons, ih]
    constructor
    · rintro (rfl | ⟨es, hes⟩)
      · exact ⟨[], .nil⟩
      · exact ⟨_, .snoc hp he hes⟩
    · rintro ⟨es, hes⟩
      cases hes with
      | nil => exact .inl rfl
      | snoc hp' he' hes =>
        obtain rfl := Option.some.inj (hp.symm.trans hp')
        obtain rfl := Option.some.inj (he.symm.trans he')
        exact .inr ⟨_, hes⟩

namespace Graph.IsShortestPathTree

variable {g : Graph} {t : ShortestPathTree} {u v : Nat} {es : List Nat} {d : Int}

/-- The tree path from the root to a node. -/
theorem exists_path {k : Nat} (h : ParentChain g t.root t.parent? k v) :
    ∃ es, t.Path g t.root es v := by
  induction h with
  | root => exact ⟨[], .nil⟩
  | step hp he _ ih =>
    obtain ⟨es, hes⟩ := ih
    exact ⟨es ++ [_], .snoc hp he hes⟩

theorem pathFrom_eq (ht : g.IsShortestPathTree t) (hg : g.Priced t.root)
    (hu : t.distance? u = some d) (h : t.Path g u es v) : t.pathFrom g u v = es := by
  obtain ⟨k, hk⟩ := ht.chain hu
  have := ht.isSpanningTree.depth_lt hg.joined (h.depth hk)
  unfold ShortestPathTree.pathFrom
  rw [h.climb ht.isSpanningTree hk (by omega), List.append_nil]

end Graph.IsShortestPathTree

end RankedPlans
