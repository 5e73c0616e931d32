import Mathlib.Algebra.Group.End
import Mathlib.Algebra.Group.Subgroup.Defs
import Mathlib.Data.Fintype.EquivFin
import Mathlib.Data.Set.Finite.Basic
import Mathlib.Tactic.Tauto
import RankedPlans.Symmetry.ColoredGraph

/-! Automorphisms of coloured graphs, and which vertices of a graph that is given by its edges are linked. -/

namespace RankedPlans

/-- A map of finitely many values into themselves that keeps them apart reaches all of them. -/
theorem exists_preimage {α : Type} {p : α → Prop} {f : α → α} {l : List α} (hl : ∀ a, p a → a ∈ l)
    (hmaps : ∀ a, p a → p (f a)) (hinj : ∀ a b, p a → p b → f a = f b → a = b) {b : α} (hb : p b) :
    ∃ a, p a ∧ f a = b := by
  have hfin : {a | p a}.Finite := (List.finite_toSet l).subset hl
  have hbij := (hfin.injOn_iff_bijOn_of_mapsTo hmaps).mp fun a ha b hb => hinj a b ha hb
  exact hbij.surjOn hb

namespace ColoredGraph

variable {g : ColoredGraph} {image : Array Nat} {v w label : Nat}

/-- A permutation of the vertices that keeps colours and edges. -/
structure Automorphism (g : ColoredGraph) (image : Array Nat) : Prop where
  size_eq : image.size = g.size
  lt : ∀ {v}, v < g.size → image.getD v 0 < g.size
  injective : ∀ {v w}, v < g.size → w < g.size → image.getD v 0 = image.getD w 0 → v = w
  color : ∀ {v}, v < g.size → g.colors[image.getD v 0]? = g.colors[v]?
  edge : ∀ {v w label}, v < g.size → g.hasEdge v w label = true →
    g.hasEdge (image.getD v 0) (image.getD w 0) label = true

theorem hasEdge_iff : g.hasEdge v w label = true ↔ (w, label) ∈ g.neighbours v := by
  rw [hasEdge, List.contains_iff_mem]

theorem isAutomorphism_iff : g.isAutomorphism image = true ↔ image.size = g.size ∧
    ∀ v, v < g.size → g.colors[image.getD v 0]? = g.colors[v]? ∧
      ∀ w label, g.hasEdge v w label = true →
        g.hasEdge (image.getD v 0) (image.getD w 0) label = true := by
  simp only [isAutomorphism, Bool.and_eq_true, beq_iff_eq, List.all_eq_true, List.mem_range,
    Prod.forall, hasEdge_iff]
  refine and_congr_right fun _ => forall₂_congr fun v _ => and_congr_left fun _ => ?_
  exact eq_comm

/-- A permutation that passes the check. -/
theorem Automorphism.of_perm (hperm : image.toList.Perm (List.range g.size))
    (h : g.isAutomorphism image = true) : Automorphism g image := by
  obtain ⟨hsize, hall⟩ := isAutomorphism_iff.mp h
  have hget : ∀ {v}, v < g.size → image.toList[v]? = some (image.getD v 0) := fun {v} hv => by
    rw [Array.getElem?_toList, Array.getD_eq_getD_getElem?, Array.getElem?_eq_getElem (hsize ▸ hv)]
    rfl
  refine ⟨hsize, fun hv => ?_, fun {v w} hv hw heq => ?_, fun hv => (hall _ hv).1,
    fun hv => (hall _ hv).2 _ _⟩
  · exact List.mem_range.mp (hperm.mem_iff.mp (List.mem_of_getElem? (hget hv)))
  · have hlt : v < image.toList.length := by rwa [Array.length_toList, hsize]
    exact (List.getElem?_inj hlt (hperm.nodup_iff.mpr List.nodup_range)).mp
      ((hget hv).trans ((congrArg some heq).trans (hget hw).symm))

/-- All edges, each from both of its ends. -/
def edges (g : ColoredGraph) : List (Nat × Nat × Nat) :=
  (List.range g.size).flatMap fun v => (g.neighbours v).map fun (w, label) => (v, w, label)

theorem mem_edges {e : Nat × Nat × Nat} (hlt : e.1 < g.size)
    (hedge : g.hasEdge e.1 e.2.1 e.2.2 = true) : e ∈ g.edges :=
  List.mem_flatMap.mpr ⟨e.1, List.mem_range.mpr hlt, List.mem_map.mpr
    ⟨(e.2.1, e.2.2), hasEdge_iff.mp hedge, rfl⟩⟩

namespace Automorphism

/-- There are as many edges before as after, so none is new. -/
theorem edge_iff (h : Automorphism g image) (hend : ∀ {v w label}, v < g.size →
      g.hasEdge v w label = true → w < g.size) (hv : v < g.size) (hw : w < g.size) :
    g.hasEdge (image.getD v 0) (image.getD w 0) label = true ↔ g.hasEdge v w label = true := by
  refine ⟨fun hedge => ?_, h.edge hv⟩
  have hinj : ∀ e e' : Nat × Nat × Nat, e.1 < g.size ∧ g.hasEdge e.1 e.2.1 e.2.2 = true →
      e'.1 < g.size ∧ g.hasEdge e'.1 e'.2.1 e'.2.2 = true →
      ((image.getD e.1 0, image.getD e.2.1 0, e.2.2) : Nat × Nat × Nat) =
        (image.getD e'.1 0, image.getD e'.2.1 0, e'.2.2) → e = e' := by
    intro e e' he he' heq
    simp only [Prod.mk.injEq] at heq
    have h₁ := h.injective he.1 he'.1 heq.1
    have h₂ := h.injective (hend he.1 he.2) (hend he'.1 he'.2) heq.2.1
    exact Prod.ext h₁ (Prod.ext h₂ heq.2.2)
  obtain ⟨⟨v', w', label'⟩, ⟨hv', hedge'⟩, heq⟩ := exists_preimage
    (fun e he => mem_edges he.1 he.2) (fun e he => ⟨h.lt he.1, h.edge he.1 he.2⟩) hinj
    (b := (image.getD v 0, image.getD w 0, label)) ⟨h.lt hv, hedge⟩
  simp only [Prod.mk.injEq] at heq
  obtain ⟨hvv, hww, rfl⟩ := heq
  rwa [← h.injective hv' hv hvv, ← h.injective (hend hv' hedge') hw hww]

end Automorphism

end ColoredGraph

/-- The image of each vertex under a permutation. -/
def vertexMap {n : Nat} (σ : Equiv.Perm (Fin n)) : Array Nat :=
  Array.ofFn fun v => (σ v : Nat)

section VertexMap

variable {n : Nat} {σ τ : Equiv.Perm (Fin n)}

@[simp] theorem size_vertexMap (σ : Equiv.Perm (Fin n)) : (vertexMap σ).size = n :=
  Array.size_ofFn

@[simp] theorem getD_vertexMap (σ : Equiv.Perm (Fin n)) (v : Fin n) :
    (vertexMap σ).getD v 0 = σ v := by
  simp [vertexMap]

theorem vertexMap_injective (h : vertexMap σ = vertexMap τ) : σ = τ :=
  Equiv.ext fun v => Fin.ext (by rw [← getD_vertexMap σ v, h, getD_vertexMap])

theorem vertexMap_one (n : Nat) : vertexMap (1 : Equiv.Perm (Fin n)) = Array.range n := by
  apply Array.ext
  · simp
  · intro v hv hv'
    simp [vertexMap]

end VertexMap

namespace ColoredGraph

variable {g : ColoredGraph} {image : Array Nat} {v w label : Nat}

/-- Every vertex has a list of neighbours, and these are vertices. -/
structure Closed (g : ColoredGraph) : Prop where
  size_eq : g.adjacency.size = g.size
  lt_size : ∀ {v w label}, (w, label) ∈ g.neighbours v → w < g.size

/-- Every vertex lists its neighbours in ascending order and none of them twice, and each of them lists the
vertex. -/
structure WellFormed (g : ColoredGraph) : Prop where
  size_eq : g.adjacency.size = g.size
  ascending : ∀ v, (g.neighbours v).Pairwise fun a b => neighbourLe a b = true ∧ a ≠ b
  symmetric : ∀ {v w label}, g.hasEdge v w label = true → g.hasEdge w v label = true

/-- The permutations of the vertices that keep every colour, and link the images of two vertices exactly as
the vertices are linked. -/
def automorphisms (g : ColoredGraph) : Subgroup (Equiv.Perm (Fin g.size)) where
  carrier := {σ | ∀ v, g.colors.getD (σ v) 0 = g.colors.getD v 0 ∧
    ∀ w label, g.hasEdge (σ v) (σ w) label = g.hasEdge v w label}
  one_mem' _ := ⟨rfl, fun _ _ => rfl⟩
  mul_mem' {σ τ} hσ hτ v := ⟨(hσ (τ v)).1.trans (hτ v).1,
    fun w label => ((hσ (τ v)).2 (τ w) label).trans ((hτ v).2 w label)⟩
  inv_mem' {σ} hσ v := by
    have hcancel : ∀ v, σ (σ⁻¹ v) = v := σ.apply_symm_apply
    refine ⟨?_, fun w label => ?_⟩
    · rw [← (hσ (σ⁻¹ v)).1, hcancel]
    · rw [← (hσ (σ⁻¹ v)).2 (σ⁻¹ w) label, hcancel, hcancel]

namespace WellFormed

variable (h : g.WellFormed)
include h

theorem nodup (v : Nat) : (g.neighbours v).Nodup :=
  (h.ascending v).imp And.right

theorem lt_size (hedge : g.hasEdge v w label = true) : w < g.size := by
  refine Nat.lt_of_not_le fun hle => ?_
  have hback := hasEdge_iff.mp (h.symmetric hedge)
  rw [neighbours, Array.getD_eq_getD_getElem?, Array.getElem?_eq_none (h.size_eq ▸ hle)] at hback
  cases hback

theorem closed : g.Closed :=
  ⟨h.size_eq, fun hmem => h.lt_size (hasEdge_iff.mpr hmem)⟩

end WellFormed

/-- A checked vertex map is a permutation of the group. -/
theorem Automorphism.exists_mem (h : Automorphism g image) (hg : g.WellFormed) :
    ∃ σ ∈ g.automorphisms, vertexMap σ = image := by
  let f : Fin g.size → Fin g.size := fun v => ⟨image.getD v 0, h.lt v.isLt⟩
  have hf : Function.Bijective f := Finite.injective_iff_bijective.mp fun v w heq =>
    Fin.ext (h.injective v.isLt w.isLt (congrArg Fin.val heq))
  refine ⟨Equiv.ofBijective f hf, fun v => ⟨?_, fun w label => ?_⟩, ?_⟩
  · rw [Array.getD_eq_getD_getElem?, Array.getD_eq_getD_getElem?]
    exact congrArg (Option.getD · 0) (h.color v.isLt)
  · exact Bool.eq_iff_iff.mpr (h.edge_iff (fun _ hedge => hg.lt_size hedge) v.isLt w.isLt)
  · apply Array.ext
    · rw [size_vertexMap, h.size_eq]
    · intro v hv hv'
      simp [vertexMap, f, hv']

theorem isAutomorphism_vertexMap (hg : g.WellFormed) {σ : Equiv.Perm (Fin g.size)}
    (hσ : σ ∈ g.automorphisms) : g.isAutomorphism (vertexMap σ) = true := by
  rw [isAutomorphism_iff]
  refine ⟨size_vertexMap σ, fun v hv => ⟨?_, fun w label hedge => ?_⟩⟩
  · obtain ⟨hcolor, -⟩ := hσ ⟨v, hv⟩
    have himage := getD_vertexMap σ ⟨v, hv⟩
    simp only at hcolor himage
    rw [himage]
    have hlt : ∀ u : Fin g.size, g.colors[(u : Nat)]? = some (g.colors.getD u 0) := fun u => by
      rw [Array.getD_eq_getD_getElem?, Array.getElem?_eq_getElem u.isLt]
      rfl
    rw [hlt (σ ⟨v, hv⟩), hcolor, ← hlt ⟨v, hv⟩]
  · have hw := hg.lt_size hedge
    have hv' := getD_vertexMap σ ⟨v, hv⟩
    have hw' := getD_vertexMap σ ⟨w, hw⟩
    simp only at hv' hw'
    rw [hv', hw']
    exact ((hσ ⟨v, hv⟩).2 ⟨w, hw⟩ label).trans hedge

end ColoredGraph

theorem mem_eraseRepsBy_loop {α : Type} [BEq α] [LawfulBEq α] (a x : α) (as acc : List α) :
    x ∈ List.eraseRepsBy.loop (· == ·) a as acc ↔ x = a ∨ x ∈ as ∨ x ∈ acc := by
  induction as generalizing a acc with
  | nil => simp [List.eraseRepsBy.loop, or_comm]
  | cons b as ih =>
    unfold List.eraseRepsBy.loop
    split
    · rename_i hab
      obtain rfl : a = b := by simpa using hab
      rw [ih, List.mem_cons]
      tauto
    · rw [ih, List.mem_cons, List.mem_cons]
      tauto

theorem mem_eraseReps {α : Type} [BEq α] [LawfulBEq α] {x : α} {as : List α} :
    x ∈ as.eraseReps ↔ x ∈ as := by
  cases as with
  | nil => exact Iff.rfl
  | cons a as =>
    rw [List.eraseReps, List.eraseRepsBy, mem_eraseRepsBy_loop, List.mem_cons]
    simp

theorem getElem?_foldl_link (edges : List (Nat × Nat × Nat)) (lists : Array (List (Nat × Nat)))
    (a b label : Nat) :
    (b, label) ∈ ((edges.foldl (fun lists (a, b, label) => ColoredGraph.link lists a b label)
        lists)[a]?.getD []) ↔
      (b, label) ∈ lists[a]?.getD [] ∨
        a < lists.size ∧ ((a, b, label) ∈ edges ∨ (b, a, label) ∈ edges) := by
  induction edges generalizing lists with
  | nil => simp
  | cons e edges ih =>
    obtain ⟨v, w, l⟩ := e
    rw [List.foldl_cons, ih]
    simp only [ColoredGraph.link, Array.getElem?_modify, Array.size_modify, List.mem_cons, Prod.mk.injEq]
    by_cases ha : a < lists.size
    · rw [Array.getElem?_eq_getElem ha]
      by_cases hv : v = a
      · by_cases hw : w = a
        · simp [hv, hw, ha]
          tauto
        · simp [hv, hw, ha, Ne.symm hw]
          tauto
      · by_cases hw : w = a
        · simp [hv, hw, ha, Ne.symm hv]
          tauto
        · simp [hv, hw, ha, Ne.symm hv, Ne.symm hw]
    · rw [Array.getElem?_eq_none (by omega)]
      simp [ha]

/-- Vertices are linked exactly if an edge between them was given, from one end or the other. -/
theorem hasEdge_ofEdges {colors : Array Nat} {edges : List (Nat × Nat × Nat)} {a b label : Nat} :
    (ColoredGraph.ofEdges colors edges).hasEdge a b label = true ↔
      a < colors.size ∧ ((a, b, label) ∈ edges ∨ (b, a, label) ∈ edges) := by
  rw [ColoredGraph.hasEdge_iff, ColoredGraph.neighbours, ColoredGraph.ofEdges,
    Array.getD_eq_getD_getElem?]
  simp only [Array.getElem?_map]
  have hlink := getElem?_foldl_link edges (Array.replicate colors.size []) a b label
  simp only [Array.getElem?_replicate, Array.size_replicate] at hlink
  rw [show (b, label) ∈ (if a < colors.size then some ([] : List (Nat × Nat)) else none).getD [] ↔
    False by split <;> simp, false_or] at hlink
  rw [← hlink]
  cases (edges.foldl (fun lists (a, b, label) => ColoredGraph.link lists a b label)
    (Array.replicate colors.size []))[a]? with
  | none => simp
  | some list =>
    rw [Option.map_some, Option.getD_some, mem_eraseReps,
      (sortBy_perm ColoredGraph.neighbourLe list).mem_iff, Option.getD_some]

/-- An element goes if it is repeated next. -/
theorem eraseReps_cons_cons {α : Type} [BEq α] [LawfulBEq α] [DecidableEq α] (a b : α) (as : List α) :
    (a :: b :: as).eraseReps = if a = b then (b :: as).eraseReps else a :: (b :: as).eraseReps := by
  have hloop : ∀ (a : α) (as acc : List α), List.eraseRepsBy.loop (· == ·) a as acc =
      acc.reverse ++ List.eraseRepsBy.loop (· == ·) a as [] := by
    intro a as
    induction as generalizing a with
    | nil => simp [List.eraseRepsBy.loop]
    | cons b as ih =>
      intro acc
      unfold List.eraseRepsBy.loop
      split
      · exact ih a acc
      · rw [ih b (a :: acc), ih b [a]]
        simp
  by_cases hab : a = b
  · simp [List.eraseReps, List.eraseRepsBy, List.eraseRepsBy.loop, hab]
  · simp [List.eraseReps, List.eraseRepsBy, List.eraseRepsBy.loop, hab, hloop b as [a],
      beq_eq_false_iff_ne.mpr hab]

theorem eraseReps_pairwise {α : Type} [BEq α] [LawfulBEq α] {r : α → α → Prop}
    (hanti : ∀ a b, r a b → r b a → a = b) {as : List α} (h : as.Pairwise r) :
    as.eraseReps.Pairwise fun a b => r a b ∧ a ≠ b := by
  classical
  induction as with
  | nil => exact .nil
  | cons a as ih =>
    cases as with
    | nil => exact List.pairwise_singleton ..
    | cons b as =>
      obtain ⟨hfirst, hrest⟩ := List.pairwise_cons.mp h
      rw [eraseReps_cons_cons]
      split
      · exact ih hrest
      · rename_i hab
        refine List.pairwise_cons.mpr ⟨fun c hc => ?_, ih hrest⟩
        have hc := mem_eraseReps.mp hc
        refine ⟨hfirst c hc, ?_⟩
        rintro rfl
        rcases List.mem_cons.mp hc with rfl | hc
        · exact hab rfl
        · exact hab (hanti _ _ (hfirst b List.mem_cons_self) ((List.pairwise_cons.mp hrest).1 _ hc))

namespace ColoredGraph

theorem neighbourLe_antisymm (a b : Nat × Nat) (hab : neighbourLe a b = true)
    (hba : neighbourLe b a = true) : a = b := by
  simp only [neighbourLe, Bool.or_eq_true, Bool.and_eq_true, decide_eq_true_eq, beq_iff_eq] at hab hba
  exact Prod.ext (by omega) (by omega)

theorem sortBy_neighbourLe_pairwise (list : List (Nat × Nat)) :
    (sortBy neighbourLe list).Pairwise fun a b => neighbourLe a b = true := by
  refine sortBy_pairwise (fun a b c hab hbc => ?_) (fun a b => ?_) list
  · simp only [neighbourLe, Bool.or_eq_true, Bool.and_eq_true, decide_eq_true_eq, beq_iff_eq] at hab hbc ⊢
    omega
  · simp only [neighbourLe, Bool.or_eq_true, Bool.and_eq_true, decide_eq_true_eq, beq_iff_eq]
    omega

/-- A graph that is given by edges between its vertices is well formed. -/
theorem wellFormed_ofEdges {colors : Array Nat} {edges : List (Nat × Nat × Nat)}
    (hlt : ∀ e ∈ edges, e.1 < colors.size ∧ e.2.1 < colors.size) : (ofEdges colors edges).WellFormed where
  size_eq := by
    have hsize : ∀ (edges : List (Nat × Nat × Nat)) (lists : Array (List (Nat × Nat))),
        (edges.foldl (fun lists (a, b, label) => link lists a b label) lists).size = lists.size := by
      intro edges
      induction edges with
      | nil => exact fun _ => rfl
      | cons e edges ih => exact fun lists => (ih _).trans (by simp [link])
    simp [ofEdges, size, hsize]
  ascending v := by
    have hascending : ∀ list : List (Nat × Nat), (sortBy neighbourLe list).eraseReps.Pairwise
        fun a b => neighbourLe a b = true ∧ a ≠ b :=
      fun list => eraseReps_pairwise neighbourLe_antisymm (sortBy_neighbourLe_pairwise list)
    rw [neighbours, ofEdges, Array.getD_eq_getD_getElem?, Array.getElem?_map]
    cases (edges.foldl (fun lists (a, b, label) => link lists a b label)
      (Array.replicate colors.size []))[v]? with
    | none => exact .nil
    | some list => exact hascending list
  symmetric {v w label} hedge := by
    rw [hasEdge_ofEdges] at hedge ⊢
    refine ⟨?_, hedge.2.symm⟩
    exact hedge.2.elim (fun h => (hlt _ h).2) fun h => (hlt _ h).1

end ColoredGraph

end RankedPlans
