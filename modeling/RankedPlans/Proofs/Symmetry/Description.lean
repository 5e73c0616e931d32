import Mathlib.Algebra.GroupWithZero.Nat
import RankedPlans.Proofs.Symmetry.ColoredGraph
import RankedPlans.Proofs.Symmetry.Refinement
import RankedPlans.Proofs.Task.State
import RankedPlans.Proofs.Task.ValueOffsets
import RankedPlans.Symmetry.Description

/-! The vertices and edges of a description graph: which vertex stands for what, which colour keys tell them
apart and which vertices are linked. -/

namespace RankedPlans.Task

variable {t : Task} {f f' : Fact} {op v w : Nat} {fixInitial : Bool}

theorem getElem?_factsFrom (vars : List Variable) (start i : Nat) :
    ((vars.zipIdx start).flatMap fun (v, var) =>
        (List.range v.values.length).map fun value => (⟨var, value⟩ : Fact))[i]? = some f ↔
      start ≤ f.var ∧ (∃ v, vars[f.var - start]? = some v ∧ f.value < v.values.length) ∧
        i = valuesBefore vars (f.var - start) + f.value := by
  induction vars generalizing start i with
  | nil => simp
  | cons v vars ih =>
    rw [List.zipIdx_cons, List.flatMap_cons, List.getElem?_append]
    obtain ⟨var, value⟩ := f
    simp only [List.length_map, List.length_range]
    by_cases hi : i < v.values.length
    · rw [if_pos hi, List.getElem?_map, List.getElem?_range hi]
      simp only [Option.map_some, Option.some.injEq, Fact.mk.injEq]
      constructor
      · rintro ⟨rfl, rfl⟩
        simp [valuesBefore, hi]
      · rintro ⟨hle, ⟨w, hw, hvalue⟩, hindex⟩
        by_cases h : var = start
        · subst h
          simp_all [valuesBefore]
        · rw [show var - start = (var - (start + 1)) + 1 by omega] at hindex
          simp only [valuesBefore, List.take_succ_cons, List.map_cons, List.sum_cons] at hindex
          omega
    · rw [if_neg hi, ih]
      simp only
      constructor
      · rintro ⟨hle, ⟨w, hw, hvalue⟩, hindex⟩
        rw [show var - start = (var - (start + 1)) + 1 by omega]
        refine ⟨by omega, ⟨w, hw, hvalue⟩, ?_⟩
        simp only [valuesBefore, List.take_succ_cons, List.map_cons, List.sum_cons] at hindex ⊢
        omega
      · rintro ⟨hle, ⟨w, hw, hvalue⟩, hindex⟩
        by_cases h : var = start
        · subst h
          simp only [Nat.sub_self, List.getElem?_cons_zero, Option.some.injEq, valuesBefore,
            List.take_zero, List.map_nil, List.sum_nil] at hw hindex
          subst hw
          omega
        · rw [show var - start = (var - (start + 1)) + 1 by omega] at hw hindex
          simp only [valuesBefore, List.take_succ_cons, List.map_cons, List.sum_cons] at hindex ⊢
          exact ⟨by omega, ⟨w, hw, hvalue⟩, by omega⟩

theorem length_factsFrom (vars : List Variable) (start : Nat) :
    ((vars.zipIdx start).flatMap fun (v, var) =>
        (List.range v.values.length).map fun value => (⟨var, value⟩ : Fact)).length =
      valuesBefore vars vars.length := by
  induction vars generalizing start with
  | nil => rfl
  | cons v vars ih =>
    rw [List.zipIdx_cons, List.flatMap_cons, List.length_append, ih]
    simp [valuesBefore]

/-- The numbering of the vertices of the description graph. -/
abbrev layout (t : Task) : VertexLayout :=
  VertexLayout.ofTask t

/-- The facts are listed in the order in which their vertices are numbered. -/
theorem getElem?_facts {i : Nat} :
    t.facts[i]? = some f ↔ t.IsFact f ∧ t.vars.size + i = t.layout.factVertex f := by
  rw [facts, getElem?_factsFrom]
  simp only [Nat.zero_le, true_and, Nat.sub_zero, Array.getElem?_toList, VertexLayout.factVertex,
    VertexLayout.ofTask, IsFact]
  refine and_congr_right fun ⟨v, hv, _⟩ => ?_
  rw [getD_valueOffsets (Nat.le_of_lt (Array.getElem?_eq_some_iff.mp hv).1)]
  omega

theorem length_facts (t : Task) : t.facts.length = t.layout.values := by
  rw [facts, length_factsFrom]
  exact (back?_valueOffsets t).symm

theorem mem_facts : f ∈ t.facts ↔ t.IsFact f := by
  rw [List.mem_iff_getElem?]
  constructor
  · rintro ⟨i, hi⟩
    exact (getElem?_facts.mp hi).1
  · intro hf
    refine ⟨t.layout.factVertex f - t.vars.size, getElem?_facts.mpr ⟨hf, ?_⟩⟩
    simp only [VertexLayout.factVertex, VertexLayout.ofTask]
    omega

section Vertices

theorem exists_index (hf : t.IsFact f) :
    ∃ i, t.facts[i]? = some f ∧ t.vars.size + i = t.layout.factVertex f := by
  obtain ⟨i, hi⟩ := List.mem_iff_getElem?.mp (mem_facts.mpr hf)
  exact ⟨i, hi, (getElem?_facts.mp hi).2⟩

theorem factVertex_lt (hf : t.IsFact f) : t.layout.factVertex f < t.vars.size + t.layout.values := by
  have := hf.number_lt
  simp only [VertexLayout.factVertex, VertexLayout.values, VertexLayout.ofTask]
  omega

theorem le_factVertex (t : Task) (f : Fact) : t.vars.size ≤ t.layout.factVertex f := by
  simp only [VertexLayout.factVertex, VertexLayout.ofTask]
  omega

theorem factVertex_injective (hf : t.IsFact f) (hf' : t.IsFact f')
    (h : t.layout.factVertex f = t.layout.factVertex f') : f = f' := by
  obtain ⟨i, hi, hvertex⟩ := exists_index hf
  obtain ⟨j, hj, hvertex'⟩ := exists_index hf'
  obtain rfl : i = j := by omega
  exact Option.some.inj (hi.symm.trans hj)

/-- Every vertex stands for a variable, a fact or an operator. -/
theorem vertex_cases (hv : v < t.layout.size) : v < t.vars.size ∨
    (∃ f, t.IsFact f ∧ v = t.layout.factVertex f) ∨
      ∃ op < t.operators.size, v = t.layout.operatorVertex op := by
  by_cases hvar : v < t.vars.size
  · exact .inl hvar
  · by_cases hfact : v < t.vars.size + t.layout.values
    · have hlt : v - t.vars.size < t.facts.length := by
        rw [length_facts]
        omega
      obtain ⟨hf, hvertex⟩ := getElem?_facts.mp (List.getElem?_eq_getElem hlt)
      exact .inr (.inl ⟨_, hf, by omega⟩)
    · simp only [VertexLayout.size, VertexLayout.ofTask, VertexLayout.values,
        VertexLayout.operatorVertex] at hv hfact ⊢
      exact .inr (.inr ⟨v - (t.vars.size + t.layout.values), by
        simp only [VertexLayout.values, VertexLayout.ofTask]; omega, by
        simp only [VertexLayout.values, VertexLayout.ofTask]; omega⟩)

end Vertices

section Colors

theorem length_colorKeys (t : Task) (fixInitial : Bool) :
    (t.colorKeys fixInitial).length = t.layout.size := by
  simp [colorKeys, length_facts, VertexLayout.size, VertexLayout.ofTask, Nat.add_assoc]

theorem getElem?_colorKeys_var (hv : v < t.vars.size) :
    (t.colorKeys fixInitial)[v]? = some [0, 0, 0, 0] := by
  rw [colorKeys, List.append_assoc, List.getElem?_append_left (by simpa using hv), List.getElem?_map,
    Array.getElem?_toList, Array.getElem?_eq_getElem hv]
  rfl

theorem getElem?_colorKeys_fact (hf : t.IsFact f) :
    (t.colorKeys fixInitial)[t.layout.factVertex f]? = some (t.factKey fixInitial f) := by
  obtain ⟨i, hi, hvertex⟩ := exists_index hf
  have hlt := (List.getElem?_eq_some_iff.mp hi).1
  rw [colorKeys, List.getElem?_append_left (by simp; omega), List.getElem?_append_right (by simp; omega),
    ← hvertex]
  simp [hi]

theorem getElem?_colorKeys_operator (hop : op < t.operators.size) :
    (t.colorKeys fixInitial)[t.layout.operatorVertex op]? = some [2, (t.operator op).cost.toNat, 0, 0] := by
  have hvertex : t.layout.operatorVertex op = t.vars.size + t.facts.length + op := by
    rw [length_facts]
    rfl
  rw [hvertex, colorKeys, List.getElem?_append_right (by simp)]
  simp [hop, operator_eq]

end Colors

section Edges

/-- The facts that an operator is linked to. -/
def linked (t : Task) (op : Nat) : Link → List Fact
  | .value => []
  | .precondition => (t.operator op).preconditions
  | .effect => (t.operator op).effects

theorem isFact_of_mem_linked {link : Link} (h : f ∈ t.linked op link) : t.IsFact f := by
  obtain ⟨hpre, heff, -⟩ := t.operator_facts op
  cases link with
  | value => cases h
  | precondition => exact hpre f h
  | effect => exact heff f h

theorem label_injective {link link' : Link} (h : link.label = link'.label) : link = link' := by
  cases link <;> cases link' <;> first | rfl | cases h

theorem mem_descriptionEdges {label : Nat} : (v, w, label) ∈ t.descriptionEdges ↔
    (∃ f, t.IsFact f ∧ v = f.var ∧ w = t.layout.factVertex f ∧ label = Link.value.label) ∨
      ∃ op < t.operators.size, ∃ link, ∃ f ∈ t.linked op link,
        v = t.layout.operatorVertex op ∧ w = t.layout.factVertex f ∧ label = link.label := by
  rw [descriptionEdges]
  simp only [List.mem_append, List.mem_map, List.mem_flatMap, mem_facts, Prod.exists, Prod.mk.injEq,
    List.mk_mem_zipIdx_iff_getElem?, Array.getElem?_toList]
  refine or_congr ?_ ?_
  · exact exists_congr fun f => and_congr_right fun _ =>
      ⟨fun h => ⟨h.1.symm, h.2.1.symm, h.2.2.symm⟩, fun h => ⟨h.1.symm, h.2.1.symm, h.2.2.symm⟩⟩
  · constructor
    · rintro ⟨o, op, ho, h⟩
      obtain ⟨hop, rfl⟩ := Array.getElem?_eq_some_iff.mp ho
      rw [← operator_eq hop] at h
      rcases h with ⟨f, hf, rfl, rfl, rfl⟩ | ⟨f, hf, rfl, rfl, rfl⟩
      · exact ⟨op, hop, .precondition, f, hf, rfl, rfl, rfl⟩
      · exact ⟨op, hop, .effect, f, hf, rfl, rfl, rfl⟩
    · rintro ⟨op, hop, link, f, hf, rfl, rfl, rfl⟩
      refine ⟨t.operator op, op, by rw [operator_eq hop]; exact Array.getElem?_eq_getElem hop, ?_⟩
      cases link with
      | value => cases hf
      | precondition => exact .inl ⟨f, hf, rfl, rfl, rfl⟩
      | effect => exact .inr ⟨f, hf, rfl, rfl, rfl⟩

theorem operatorVertex_injective {op' : Nat}
    (h : t.layout.operatorVertex op = t.layout.operatorVertex op') : op = op' := by
  simp only [VertexLayout.operatorVertex] at h
  omega

theorem factVertex_ne_operatorVertex (hf : t.IsFact f) (op : Nat) :
    t.layout.factVertex f ≠ t.layout.operatorVertex op := by
  have := factVertex_lt hf
  simp only [VertexLayout.operatorVertex, VertexLayout.ofTask] at this ⊢
  omega

theorem size_descriptionGraph (t : Task) (fixInitial : Bool) :
    (t.descriptionGraph fixInitial).size = t.layout.size := by
  rw [descriptionGraph, ColoredGraph.size, ColoredGraph.ofEdges, size_denseRanks, length_colorKeys]

theorem var_lt_size (hv : v < t.vars.size) : v < (t.descriptionGraph fixInitial).size := by
  rw [size_descriptionGraph]
  simp only [VertexLayout.size, VertexLayout.ofTask]
  omega

theorem factVertex_lt_size (hf : t.IsFact f) :
    t.layout.factVertex f < (t.descriptionGraph fixInitial).size := by
  have := factVertex_lt hf
  rw [size_descriptionGraph]
  simp only [VertexLayout.size, VertexLayout.ofTask] at this ⊢
  omega

theorem operatorVertex_lt_size (hop : op < t.operators.size) :
    t.layout.operatorVertex op < (t.descriptionGraph fixInitial).size := by
  rw [size_descriptionGraph]
  simp only [VertexLayout.size, VertexLayout.operatorVertex, VertexLayout.ofTask]
  omega

theorem hasEdge_descriptionGraph {label : Nat} :
    (t.descriptionGraph fixInitial).hasEdge v w label = true ↔ v < t.layout.size ∧
      ((v, w, label) ∈ t.descriptionEdges ∨ (w, v, label) ∈ t.descriptionEdges) := by
  rw [descriptionGraph, hasEdge_ofEdges, size_denseRanks, length_colorKeys]

/-- The value of a variable is linked to no other variable. -/
theorem hasEdge_value (hf : t.IsFact f) (hv : v < t.vars.size) :
    (t.descriptionGraph fixInitial).hasEdge (t.layout.factVertex f) v Link.value.label = true ↔
      f.var = v := by
  have hle := le_factVertex t f
  rw [hasEdge_descriptionGraph, mem_descriptionEdges, mem_descriptionEdges]
  constructor
  · rintro ⟨-, (⟨f', hf', heq, -⟩ | ⟨op, -, -, f', -, heq, -⟩) |
      (⟨f', hf', rfl, heq, -⟩ | ⟨op, -, -, f', -, heq, -⟩)⟩
    · have := hf'.lt
      omega
    · exact absurd heq (factVertex_ne_operatorVertex hf op)
    · rw [factVertex_injective hf hf' heq]
    · simp only [VertexLayout.operatorVertex, VertexLayout.ofTask] at heq
      omega
  · rintro rfl
    refine ⟨?_, .inr (.inl ⟨f, hf, rfl, rfl, rfl⟩)⟩
    rw [← size_descriptionGraph t fixInitial]
    exact factVertex_lt_size hf

/-- An operator is linked to its own facts only. -/
theorem hasEdge_operator (fixInitial : Bool) {link : Link} (hop : op < t.operators.size) (hf : t.IsFact f) :
    (t.descriptionGraph fixInitial).hasEdge (t.layout.operatorVertex op) (t.layout.factVertex f)
      link.label = true ↔ f ∈ t.linked op link := by
  rw [hasEdge_descriptionGraph, mem_descriptionEdges, mem_descriptionEdges]
  constructor
  · rintro ⟨-, (⟨f', hf', heq, -⟩ | ⟨op', -, link', f', hf', heq, hfact, hlabel⟩) |
      (⟨f', hf', -, heq, -⟩ | ⟨op', -, link', f', hf', heq, -⟩)⟩
    · have := hf'.lt
      simp only [VertexLayout.operatorVertex, VertexLayout.ofTask] at heq
      omega
    · obtain rfl := operatorVertex_injective heq
      obtain rfl := label_injective hlabel
      rwa [factVertex_injective hf (isFact_of_mem_linked hf') hfact]
    · exact absurd heq.symm (factVertex_ne_operatorVertex hf' op)
    · exact absurd heq (factVertex_ne_operatorVertex hf op')
  · intro h
    refine ⟨?_, .inl (.inr ⟨op, hop, link, f, h, rfl, rfl, rfl⟩)⟩
    rw [← size_descriptionGraph t fixInitial]
    exact operatorVertex_lt_size hop

theorem hasEdge_lt_size {label : Nat}
    (h : (t.descriptionGraph fixInitial).hasEdge v w label = true) :
    w < (t.descriptionGraph fixInitial).size := by
  rw [hasEdge_descriptionGraph, mem_descriptionEdges, mem_descriptionEdges] at h
  obtain ⟨-, (⟨f, hf, -, rfl, -⟩ | ⟨op, -, _, f, hf, -, rfl, -⟩) |
    (⟨f, hf, rfl, -⟩ | ⟨op, hop, -, -, -, rfl, -⟩)⟩ := h
  · exact factVertex_lt_size hf
  · exact factVertex_lt_size (isFact_of_mem_linked hf)
  · exact var_lt_size hf.lt
  · exact operatorVertex_lt_size hop

theorem wellFormed_descriptionGraph (t : Task) (fixInitial : Bool) :
    (t.descriptionGraph fixInitial).WellFormed := by
  refine ColoredGraph.wellFormed_ofEdges fun (v, w, label) he => ?_
  have hsize : ∀ v, v < (denseRanks (t.colorKeys fixInitial)).size ↔
      v < (t.descriptionGraph fixInitial).size := fun _ => Iff.rfl
  simp only [hsize]
  rcases mem_descriptionEdges.mp he with ⟨f, hf, rfl, rfl, -⟩ | ⟨op, hop, _, f, hf, rfl, rfl, -⟩
  · exact ⟨var_lt_size hf.lt, factVertex_lt_size hf⟩
  · exact ⟨operatorVertex_lt_size hop, factVertex_lt_size (isFact_of_mem_linked hf)⟩

/-- Vertices have the same colour exactly if they have the same key. -/
theorem colors_eq_iff (hv : v < t.layout.size) (hw : w < t.layout.size) :
    (t.descriptionGraph fixInitial).colors[w]? = (t.descriptionGraph fixInitial).colors[v]? ↔
      (t.colorKeys fixInitial)[w]? = (t.colorKeys fixInitial)[v]? := by
  have hranks : ∀ {v}, v < (t.colorKeys fixInitial).length →
      (t.descriptionGraph fixInitial).colors[v]? =
        some ((denseRanks (t.colorKeys fixInitial)).getD v 0) := by
    intro v hv
    rw [Array.getD_eq_getD_getElem?]
    exact (by simp [descriptionGraph, ColoredGraph.ofEdges, hv])
  rw [← length_colorKeys t fixInitial] at hv hw
  rw [hranks hv, hranks hw, List.getElem?_eq_getElem hv, List.getElem?_eq_getElem hw, Option.some.injEq,
    Option.some.injEq]
  exact denseRanks_eq_iff (List.getElem?_eq_getElem hw) (List.getElem?_eq_getElem hv)

end Edges

section Images

variable {image : Array Nat}

/-- An automorphism leads to vertices of the same keys. -/
theorem getElem?_colorKeys_image (h : (t.descriptionGraph fixInitial).Automorphism image)
    (hv : v < (t.descriptionGraph fixInitial).size) :
    (t.colorKeys fixInitial)[image.getD v 0]? = (t.colorKeys fixInitial)[v]? := by
  have hlt := h.lt hv
  rw [size_descriptionGraph] at hlt
  exact (colors_eq_iff (size_descriptionGraph t fixInitial ▸ hv) hlt).mp (h.color hv)

theorem image_var (h : (t.descriptionGraph fixInitial).Automorphism image) (hv : v < t.vars.size) :
    image.getD v 0 < t.vars.size := by
  have hkey := getElem?_colorKeys_image h (var_lt_size hv)
  have hlt := h.lt (var_lt_size hv)
  rw [size_descriptionGraph] at hlt
  rw [getElem?_colorKeys_var hv] at hkey
  rcases vertex_cases hlt with hvar | ⟨f, hf, heq⟩ | ⟨op, hop, heq⟩
  · exact hvar
  · rw [heq, getElem?_colorKeys_fact hf] at hkey
    simp [factKey] at hkey
  · rw [heq, getElem?_colorKeys_operator hop] at hkey
    simp at hkey

theorem image_factVertex (h : (t.descriptionGraph fixInitial).Automorphism image) (hf : t.IsFact f) :
    ∃ f', t.IsFact f' ∧ image.getD (t.layout.factVertex f) 0 = t.layout.factVertex f' ∧
      t.factKey fixInitial f' = t.factKey fixInitial f := by
  have hkey := getElem?_colorKeys_image h (factVertex_lt_size hf)
  have hlt := h.lt (factVertex_lt_size hf)
  rw [size_descriptionGraph] at hlt
  rw [getElem?_colorKeys_fact hf] at hkey
  rcases vertex_cases hlt with hvar | ⟨f', hf', heq⟩ | ⟨op, hop, heq⟩
  · rw [getElem?_colorKeys_var hvar] at hkey
    simp [factKey] at hkey
  · rw [heq, getElem?_colorKeys_fact hf'] at hkey
    exact ⟨f', hf', heq, Option.some.inj hkey⟩
  · rw [heq, getElem?_colorKeys_operator hop] at hkey
    simp [factKey] at hkey

theorem image_operatorVertex (h : (t.descriptionGraph fixInitial).Automorphism image)
    (hop : op < t.operators.size) : ∃ op' < t.operators.size,
      image.getD (t.layout.operatorVertex op) 0 = t.layout.operatorVertex op' ∧
      (t.operator op').cost = (t.operator op).cost := by
  have hkey := getElem?_colorKeys_image h (operatorVertex_lt_size hop)
  have hlt := h.lt (operatorVertex_lt_size hop)
  rw [size_descriptionGraph] at hlt
  rw [getElem?_colorKeys_operator hop] at hkey
  rcases vertex_cases hlt with hvar | ⟨f', hf', heq⟩ | ⟨op', hop', heq⟩
  · rw [getElem?_colorKeys_var hvar] at hkey
    simp at hkey
  · rw [heq, getElem?_colorKeys_fact hf'] at hkey
    simp [factKey] at hkey
  · rw [heq, getElem?_colorKeys_operator hop'] at hkey
    refine ⟨op', hop', heq, ?_⟩
    have hcost : (t.operator op').cost.toNat = (t.operator op).cost.toNat := by simpa using hkey
    have := t.operator_cost_nonneg op
    have := t.operator_cost_nonneg op'
    omega

end Images

end RankedPlans.Task
