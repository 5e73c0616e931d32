import Mathlib.Data.List.FinRange
import RankedPlans.Proofs.Symmetry.Generator

/-! The automorphisms of the description graph are exactly the relabellings of the task: one permutation of
the variables, one of the operators, and for each variable a bijection of its values onto those of its
image. -/

namespace RankedPlans

/-- Renames the variables of a task, the values of each variable and the operators. -/
structure Relabelling (t : Task) where
  vars : Equiv.Perm (Fin t.vars.size)
  values : ∀ v : Fin t.vars.size, Fin t.vars[v].values.length ≃ Fin t.vars[vars v].values.length
  operators : Equiv.Perm (Fin t.operators.size)

theorem Task.IsFact.exists_fin {t : Task} {f : Fact} (hf : t.IsFact f) :
    ∃ (v : Fin t.vars.size) (x : Fin t.vars[v].values.length), f = ⟨v, x⟩ := by
  obtain ⟨v, hv, hvalue⟩ := hf
  obtain ⟨hlt, rfl⟩ := Array.getElem?_eq_some_iff.mp hv
  exact ⟨⟨f.var, hlt⟩, ⟨f.value, hvalue⟩, rfl⟩

theorem Task.isFact_fin {t : Task} (v : Fin t.vars.size) (x : Fin t.vars[v].values.length) :
    t.IsFact ⟨v, x⟩ :=
  ⟨t.vars[v], Array.getElem?_eq_getElem v.isLt, x.isLt⟩

namespace Relabelling

open RankedPlans.Task

variable {t : Task} (r : Relabelling t) {fixInitial : Bool} {f : Fact} {v w label : Nat}

/-- The maps as arrays. -/
def generator : Generator where
  vars := vertexMap r.vars
  values := Array.ofFn fun v => Array.ofFn fun x => (r.values v x : Nat)
  operators := vertexMap r.operators
  inverse := vertexMap r.operators.symm

/-- The image of each vertex of the description graph: variables, then facts, then operators. -/
def vertices : Array Nat :=
  vertexMap r.vars ++ (t.facts.map fun f => t.layout.factVertex (r.generator.mapFact f)).toArray ++
    Array.ofFn fun op => t.layout.operatorVertex (r.operators op)

/-- Operators keep their costs, and their preconditions and effects, the goal and, if asked, the initial
state are renamed along. -/
structure Keeps (fixInitial : Bool) : Prop where
  cost : ∀ op, (t.operator (r.operators op)).cost = (t.operator op).cost
  preconditions : ∀ (op : Fin t.operators.size) (f : Fact), f ∈ (t.operator (r.operators op)).preconditions ↔
    f ∈ (t.operator op).preconditions.map r.generator.mapFact
  effects : ∀ (op : Fin t.operators.size) (f : Fact), f ∈ (t.operator (r.operators op)).effects ↔
    f ∈ (t.operator op).effects.map r.generator.mapFact
  goal : ∀ f, f ∈ t.goal ↔ f ∈ t.goal.map r.generator.mapFact
  initial : fixInitial = true → ∀ f : Fact, f.holds t.initial = true →
    (r.generator.mapFact f).holds t.initial = true

@[simp] theorem mapFact_mk (v : Fin t.vars.size) (x : Fin t.vars[v].values.length) :
    r.generator.mapFact ⟨v, x⟩ = ⟨r.vars v, r.values v x⟩ := by
  simp [generator, Generator.mapFact, vertexMap]

theorem getD_vars (v : Fin t.vars.size) : r.generator.vars.getD v 0 = r.vars v :=
  getD_vertexMap r.vars v

@[simp] theorem mapOperator_fin (op : Fin t.operators.size) :
    r.generator.mapOperator op = r.operators op :=
  getD_vertexMap r.operators op

theorem isFact_mapFact (hf : t.IsFact f) : t.IsFact (r.generator.mapFact f) := by
  obtain ⟨v, x, rfl⟩ := hf.exists_fin
  rw [mapFact_mk]
  exact isFact_fin _ _

theorem mapFact_injective {f' : Fact} (hf : t.IsFact f) (hf' : t.IsFact f')
    (heq : r.generator.mapFact f = r.generator.mapFact f') : f = f' := by
  obtain ⟨v, x, rfl⟩ := hf.exists_fin
  obtain ⟨v', x', rfl⟩ := hf'.exists_fin
  rw [mapFact_mk, mapFact_mk, Fact.mk.injEq] at heq
  obtain rfl := r.vars.injective (Fin.ext heq.1)
  rw [(r.values v).injective (Fin.ext heq.2)]

theorem mapFact_mem_map_iff {facts : List Fact} (hfacts : ∀ f ∈ facts, t.IsFact f) (hf : t.IsFact f) :
    r.generator.mapFact f ∈ facts.map r.generator.mapFact ↔ f ∈ facts := by
  refine ⟨fun hmem => ?_, List.mem_map_of_mem⟩
  obtain ⟨f', hf', heq⟩ := List.mem_map.mp hmem
  rwa [← r.mapFact_injective (hfacts f' hf') hf heq]

section Vertices

theorem size_vertices : r.vertices.size = t.layout.size := by
  simp [vertices, length_facts, VertexLayout.size, VertexLayout.ofTask, Nat.add_assoc]

theorem getD_vertices_var (v : Fin t.vars.size) : r.vertices.getD v 0 = r.vars v := by
  rw [Array.getD_eq_getD_getElem?, vertices, Array.append_assoc, Array.getElem?_append_left (by simp)]
  simp [vertexMap]

theorem getD_vertices_fact (hf : t.IsFact f) :
    r.vertices.getD (t.layout.factVertex f) 0 = t.layout.factVertex (r.generator.mapFact f) := by
  obtain ⟨i, hi, hvertex⟩ := exists_index hf
  have hlt := (List.getElem?_eq_some_iff.mp hi).1
  rw [Array.getD_eq_getD_getElem?, vertices, Array.getElem?_append_left (by simp; omega),
    Array.getElem?_append_right (by simp; omega), ← hvertex]
  simp [hi]

theorem getD_vertices_operator (op : Fin t.operators.size) :
    r.vertices.getD (t.layout.operatorVertex op) 0 = t.layout.operatorVertex (r.operators op) := by
  have hvertex : t.layout.operatorVertex op = t.vars.size + t.facts.length + op := by
    rw [length_facts]
    rfl
  rw [Array.getD_eq_getD_getElem?, hvertex, vertices, Array.getElem?_append_right (by simp)]
  simp

/-- What holds of all variables, facts and operators holds of all vertices. -/
theorem forall_vertices {p : Nat → Prop} (hvar : ∀ v : Fin t.vars.size, p v)
    (hfact : ∀ f, t.IsFact f → p (t.layout.factVertex f))
    (hoperator : ∀ op : Fin t.operators.size, p (t.layout.operatorVertex op)) (hv : v < t.layout.size) :
    p v := by
  rcases vertex_cases hv with hlt | ⟨f, hf, rfl⟩ | ⟨op, hop, rfl⟩
  · exact hvar ⟨v, hlt⟩
  · exact hfact f hf
  · exact hoperator ⟨op, hop⟩

end Vertices

theorem operators_nodup : (vertexMap r.operators).toList.Nodup := by
  rw [vertexMap, Array.toList_ofFn, List.nodup_ofFn]
  exact Fin.val_injective.comp r.operators.injective

theorem ofVertices_mapFact (hf : t.IsFact f) :
    (Generator.ofVertices t r.vertices).mapFact f = r.generator.mapFact f := by
  have hvertex := r.getD_vertices_fact hf
  obtain ⟨v, x, rfl⟩ := hf.exists_fin
  rw [Generator.ofVertices_fact hf, hvertex, r.getD_vertices_var, mapFact_mk]
  refine congrArg (Fact.mk _) ?_
  simp only [VertexLayout.factVertex]
  omega

theorem ofVertices_mapOperator (op : Fin t.operators.size) :
    (Generator.ofVertices t r.vertices).mapOperator op = r.operators op := by
  rw [Generator.ofVertices_operator op.isLt, r.getD_vertices_operator]
  simp only [VertexLayout.operatorVertex]
  omega

theorem eq_of_getD_eq {xs ys : Array Nat} (hsize : xs.size = ys.size)
    (h : ∀ i < ys.size, xs.getD i 0 = ys.getD i 0) : xs = ys := by
  refine Array.ext hsize fun i hi hi' => ?_
  have := h i hi'
  rwa [Array.getD_eq_getD_getElem?, Array.getD_eq_getD_getElem?, Array.getElem?_eq_getElem hi,
    Array.getElem?_eq_getElem hi'] at this

/-- The generator that is read off the vertices consists of the maps themselves. -/
theorem ofVertices_inverse (vertices : Array Nat) : (Generator.ofVertices t vertices).inverse =
    (Generator.ofVertices t vertices).operators.toList.zipIdx.foldl
      (fun inv (op', op) => inv.setIfInBounds op' op) (Array.replicate t.operators.size 0) :=
  rfl

theorem ofVertices_vertices : Generator.ofVertices t r.vertices = r.generator := by
  have hvars : (Generator.ofVertices t r.vertices).vars = r.generator.vars := by
    refine eq_of_getD_eq (by simp [Generator.ofVertices, generator, VertexLayout.ofTask]) fun v hv => ?_
    have hlt : v < t.vars.size := by simpa [generator] using hv
    rw [Generator.ofVertices_var hlt, r.getD_vertices_var ⟨v, hlt⟩]
    exact (getD_vertexMap r.vars ⟨v, hlt⟩).symm
  have hvalues : (Generator.ofVertices t r.vertices).values = r.generator.values := by
    refine Array.ext (by simp [Generator.ofVertices, generator]) fun v hv hv' => ?_
    have hlt : v < t.vars.size := by simpa [generator] using hv'
    refine eq_of_getD_eq (by simp [Generator.ofVertices, generator]) fun x hx => ?_
    have hlt' : x < t.vars[v].values.length := by simpa [generator] using hx
    have hfact := congrArg Fact.value (r.ofVertices_mapFact (isFact_fin ⟨v, hlt⟩ ⟨x, hlt'⟩))
    have hrow : ∀ {g : Generator} (h : v < g.values.size), (g.mapFact ⟨v, x⟩).value = g.values[v].getD x 0 :=
      fun h => by simp [Generator.mapFact, h]
    rwa [hrow hv, hrow hv'] at hfact
  have hoperators : (Generator.ofVertices t r.vertices).operators = vertexMap r.operators := by
    refine eq_of_getD_eq (by simp [Generator.ofVertices, VertexLayout.ofTask]) fun op hop => ?_
    rw [size_vertexMap] at hop
    exact (r.ofVertices_mapOperator ⟨op, hop⟩).trans (getD_vertexMap r.operators ⟨op, hop⟩).symm
  have hinverse : (Generator.ofVertices t r.vertices).inverse = r.generator.inverse := by
    -- each operator is written down at its image, and no two at the same place
    rw [ofVertices_inverse, hoperators]
    refine eq_of_getD_eq ((size_positions ..).trans (size_vertexMap _).symm) fun op hop => ?_
    replace hop : op < t.operators.size := hop.trans_eq (size_vertexMap _)
    have hget : (vertexMap r.operators)[(r.operators.symm ⟨op, hop⟩ : Nat)]? = some op := by
      simp [vertexMap]
    rw [Array.getD_eq_getD_getElem?, getElem?_positions r.operators_nodup hget hop, Option.getD_some]
    exact (getD_vertexMap r.operators.symm ⟨op, hop⟩).symm
  rw [show r.generator = ⟨r.generator.vars, r.generator.values, vertexMap r.operators, r.generator.inverse⟩
    from rfl, ← hvars, ← hvalues, ← hoperators, ← hinverse]

namespace Keeps

variable {r} (h : r.Keeps fixInitial)
include h

theorem mem_linked {link : Link} (op : Fin t.operators.size) :
    f ∈ t.linked (r.operators op) link ↔ f ∈ (t.linked op link).map r.generator.mapFact := by
  cases link with
  | value => exact iff_of_false List.not_mem_nil List.not_mem_nil
  | precondition => exact h.preconditions op f
  | effect => exact h.effects op f

theorem mapFact_mem_linked {link : Link} (op : Fin t.operators.size) (hf : t.IsFact f) :
    r.generator.mapFact f ∈ t.linked (r.operators op) link ↔ f ∈ t.linked op link :=
  (h.mem_linked op).trans (r.mapFact_mem_map_iff (fun _ => isFact_of_mem_linked) hf)

theorem goal_iff (hf : t.IsFact f) : r.generator.mapFact f ∈ t.goal ↔ f ∈ t.goal :=
  (h.goal _).trans (r.mapFact_mem_map_iff t.goal_facts.1 hf)

theorem initial_iff (hfix : fixInitial = true) (hf : t.IsFact f) :
    (r.generator.mapFact f).holds t.initial = true ↔ f.holds t.initial = true := by
  refine ⟨fun hold => ?_, h.initial hfix f⟩
  obtain ⟨f', hvar, hf'⟩ := t.isState_initial.exists_holds hf.lt
  have hfact := t.isState_initial.isFact hf'
  obtain ⟨v, x, rfl⟩ := hf.exists_fin
  obtain ⟨v', x', rfl⟩ := hfact.exists_fin
  obtain rfl : v' = v := Fin.ext hvar
  have heq := Fact.eq_of_holds hold (h.initial hfix _ hf') (by rw [mapFact_mk, mapFact_mk])
  rwa [r.mapFact_injective hf hfact heq]

theorem factKey_mapFact (hf : t.IsFact f) :
    t.factKey fixInitial (r.generator.mapFact f) = t.factKey fixInitial f := by
  simp only [factKey, h.goal_iff hf]
  cases hfix : fixInitial with
  | false => rfl
  | true => simp only [Bool.true_and, h.initial_iff hfix hf]

theorem colorKeys_vertices (hv : v < t.layout.size) :
    (t.colorKeys fixInitial)[r.vertices.getD v 0]? = (t.colorKeys fixInitial)[v]? := by
  refine forall_vertices (p := fun v => (t.colorKeys fixInitial)[r.vertices.getD v 0]? =
    (t.colorKeys fixInitial)[v]?) (fun v => ?_) (fun f hf => ?_) (fun op => ?_) hv
  · rw [getD_vertices_var, getElem?_colorKeys_var v.isLt, getElem?_colorKeys_var (r.vars v).isLt]
  · rw [getD_vertices_fact r hf, getElem?_colorKeys_fact hf, getElem?_colorKeys_fact (r.isFact_mapFact hf),
      h.factKey_mapFact hf]
  · rw [getD_vertices_operator, getElem?_colorKeys_operator op.isLt,
      getElem?_colorKeys_operator (r.operators op).isLt, h.cost op]

theorem mem_descriptionEdges (he : (v, w, label) ∈ t.descriptionEdges) :
    (r.vertices.getD v 0, r.vertices.getD w 0, label) ∈ t.descriptionEdges := by
  rw [Task.mem_descriptionEdges] at he ⊢
  rcases he with ⟨f, hf, rfl, rfl, rfl⟩ | ⟨op, hop, link, f, hf, rfl, rfl, rfl⟩
  · refine .inl ⟨_, r.isFact_mapFact hf, ?_, r.getD_vertices_fact hf, rfl⟩
    obtain ⟨v, x, rfl⟩ := hf.exists_fin
    rw [r.getD_vertices_var, mapFact_mk]
  · have hfact := isFact_of_mem_linked hf
    exact .inr ⟨_, (r.operators ⟨op, hop⟩).isLt, link, _, (h.mapFact_mem_linked ⟨op, hop⟩ hfact).mpr hf,
      r.getD_vertices_operator ⟨op, hop⟩, r.getD_vertices_fact hfact, rfl⟩

theorem getD_vertices_lt (hv : v < t.layout.size) : r.vertices.getD v 0 < t.layout.size := by
  have hkey := h.colorKeys_vertices hv
  rw [← length_colorKeys t fixInitial] at hv ⊢
  rw [List.getElem?_eq_getElem hv] at hkey
  exact (List.getElem?_eq_some_iff.mp hkey).1

/-- The vertex map of a relabelling that keeps the task is an automorphism. -/
theorem isAutomorphism_vertices : (t.descriptionGraph fixInitial).isAutomorphism r.vertices = true := by
  rw [ColoredGraph.isAutomorphism_iff, size_vertices, size_descriptionGraph]
  refine ⟨rfl, fun v hv => ⟨?_, fun w label hedge => ?_⟩⟩
  · exact (colors_eq_iff hv (h.getD_vertices_lt hv)).mpr (h.colorKeys_vertices hv)
  · rw [hasEdge_descriptionGraph] at hedge ⊢
    exact ⟨h.getD_vertices_lt hv, hedge.2.imp h.mem_descriptionEdges h.mem_descriptionEdges⟩

omit h in
theorem mapFacts_eq {facts facts' : List Fact} (hfacts : ∀ f ∈ facts, t.IsFact f)
    (hnd : (facts.map Fact.var).Nodup) (hnd' : (facts'.map Fact.var).Nodup)
    (hsorted : Fact.sort facts' = facts')
    (hmem : ∀ f, f ∈ facts' ↔ f ∈ facts.map r.generator.mapFact) :
    r.generator.mapFacts facts = facts' := by
  have hinj : (facts.map r.generator.mapFact).Nodup :=
    (List.Nodup.of_map _ hnd).map_on fun f hf f' hf' => r.mapFact_injective (hfacts f hf) (hfacts f' hf')
  have hperm : (facts.map r.generator.mapFact).Perm facts' :=
    (List.perm_ext_iff_of_nodup hinj (List.Nodup.of_map _ hnd')).mpr fun f => (hmem f).symm
  rw [Generator.mapFacts, Fact.sort, sortBy_eq_of_perm Fact.le_trans Fact.le_total Fact.le_antisymm hperm]
  exact hsorted

theorem symmetry : Generator.Symmetry t fixInitial r.generator where
  var_lt hv := by
    rw [r.getD_vars ⟨_, hv⟩]
    exact (r.vars _).isLt
  var_injective hv hw heq := by
    rw [r.getD_vars ⟨_, hv⟩, r.getD_vars ⟨_, hw⟩] at heq
    exact congrArg Fin.val (r.vars.injective (Fin.ext heq))
  isFact := r.isFact_mapFact
  fact_injective := r.mapFact_injective
  operator_lt hop := by
    rw [r.mapOperator_fin ⟨_, hop⟩]
    exact (r.operators _).isLt
  unmapOperator_mapOperator hop := by
    rw [r.mapOperator_fin ⟨_, hop⟩]
    exact (getD_vertexMap r.operators.symm _).trans
      (congrArg Fin.val (r.operators.symm_apply_apply _))
  cost_eq hop := by
    rw [r.mapOperator_fin ⟨_, hop⟩]
    exact h.cost _
  linked_iff link hop hf := by
    rw [r.mapOperator_fin ⟨_, hop⟩]
    exact h.mapFact_mem_linked ⟨_, hop⟩ hf
  goal_iff := h.goal_iff
  initial_iff hfix _ := h.initial_iff hfix

/-- The check of a generator against the task succeeds. -/
theorem preserves_generator : r.generator.preserves t fixInitial = true := by
  have hpreconditions : ∀ op : Fin t.operators.size,
      r.generator.mapFacts (t.operator op).preconditions = (t.operator (r.operators op)).preconditions :=
    fun op => mapFacts_eq (t.operator_lists op).1.1 (t.operator_lists op).1.2 (t.operator_lists _).1.2
      (congrArg Operator.preconditions (t.normalize_operator _)) (h.preconditions op)
  have heffects : ∀ op : Fin t.operators.size,
      r.generator.mapFacts (t.operator op).effects = (t.operator (r.operators op)).effects :=
    fun op => mapFacts_eq (t.operator_lists op).2.1 (t.operator_lists op).2.2 (t.operator_lists _).2.2
      (congrArg Operator.effects (t.normalize_operator _)) (h.effects op)
  have hgoal : r.generator.mapFacts t.goal = t.goal :=
    mapFacts_eq t.goal_facts.1 t.goal_facts.2 t.goal_facts.2 (congrArg Draft.goal t.normalized) h.goal
  simp only [Generator.preserves, Bool.and_eq_true, List.all_eq_true, List.mem_range, beq_iff_eq,
    Bool.or_eq_true, Bool.not_eq_true']
  refine ⟨⟨fun op hop => ?_, hgoal⟩, ?_⟩
  · rw [r.mapOperator_fin ⟨op, hop⟩]
    exact ⟨⟨h.cost ⟨op, hop⟩, hpreconditions ⟨op, hop⟩⟩, heffects ⟨op, hop⟩⟩
  · cases hfix : fixInitial with
    | false => exact .inl rfl
    | true => exact .inr (h.symmetry.mapState_initial hfix)

end Keeps

end Relabelling

namespace Generator.Symmetry

open RankedPlans.Task

variable {t : Task} {g : Generator} {fixInitial : Bool} {f : Fact} (h : Symmetry t fixInitial g)

/-- The values of a variable go to those of its image, one to one. -/
theorem values_bijective (v : Fin t.vars.size) :
    ∃ hlt : ∀ x : Fin t.vars[v].values.length,
        (g.mapFact ⟨v, x⟩).value < t.vars[(⟨g.vars.getD v 0, h.var_lt v.isLt⟩ : Fin t.vars.size)].values.length,
      Function.Bijective fun x : Fin t.vars[v].values.length => (⟨(g.mapFact ⟨v, x⟩).value, hlt x⟩ : Fin _) := by
  refine ⟨fun x => ?_, fun x x' heq => ?_, fun y => ?_⟩
  · obtain ⟨w, hw, hvalue⟩ := h.isFact (isFact_fin v x)
    obtain ⟨_, rfl⟩ := Array.getElem?_eq_some_iff.mp hw
    exact hvalue
  · have hfact := h.fact_injective (isFact_fin v x) (isFact_fin v x')
      (congrArg (Fact.mk (g.vars.getD v 0)) (congrArg Fin.val heq))
    exact Fin.ext (congrArg Fact.value hfact)
  · obtain ⟨f, hf, heq⟩ := h.exists_fact (isFact_fin ⟨g.vars.getD v 0, h.var_lt v.isLt⟩ y)
    obtain ⟨v', x, rfl⟩ := hf.exists_fin
    obtain rfl : v' = v := Fin.ext (h.var_injective v'.isLt v.isLt (congrArg Fact.var heq))
    exact ⟨x, Fin.ext (congrArg Fact.value heq)⟩

/-- The permutations and bijections that a generator consists of. -/
noncomputable def relabelling : Relabelling t where
  vars := .ofBijective (fun v => ⟨g.vars.getD v 0, h.var_lt v.isLt⟩) (by
    refine Finite.injective_iff_bijective.mp fun v w heq => Fin.ext ?_
    exact h.var_injective v.isLt w.isLt (congrArg Fin.val heq))
  values v := .ofBijective _ (h.values_bijective v).choose_spec
  operators := .ofBijective (fun op => ⟨g.mapOperator op, h.operator_lt op.isLt⟩) (by
    refine Finite.injective_iff_bijective.mp fun op op' heq => Fin.ext ?_
    rw [← h.unmapOperator_mapOperator op.isLt, ← h.unmapOperator_mapOperator op'.isLt]
    exact congrArg g.unmapOperator (congrArg Fin.val heq))

theorem relabelling_mapFact (hf : t.IsFact f) : h.relabelling.generator.mapFact f = g.mapFact f := by
  obtain ⟨v, x, rfl⟩ := hf.exists_fin
  exact h.relabelling.mapFact_mk v x

theorem mem_map_relabelling {facts facts' : List Fact} (hfacts : ∀ f ∈ facts, t.IsFact f)
    (hfacts' : ∀ f ∈ facts', t.IsFact f)
    (hiff : ∀ {f}, t.IsFact f → (g.mapFact f ∈ facts' ↔ f ∈ facts)) (f : Fact) :
    f ∈ facts' ↔ f ∈ facts.map h.relabelling.generator.mapFact := by
  constructor
  · intro hf
    obtain ⟨f, hfact, rfl⟩ := h.exists_fact (hfacts' f hf)
    exact List.mem_map.mpr ⟨f, (hiff hfact).mp hf, h.relabelling_mapFact hfact⟩
  · intro hf
    obtain ⟨f', hf', rfl⟩ := List.mem_map.mp hf
    rw [h.relabelling_mapFact (hfacts f' hf')]
    exact (hiff (hfacts f' hf')).mpr hf'

theorem keeps_relabelling : h.relabelling.Keeps fixInitial where
  cost op := h.cost_eq op.isLt
  preconditions op := h.mem_map_relabelling (t.operator_facts op).1 (t.operator_facts _).1
    (h.linked_iff .precondition op.isLt)
  effects op := h.mem_map_relabelling (t.operator_facts op).2.1 (t.operator_facts _).2.1
    (h.linked_iff .effect op.isLt)
  goal := h.mem_map_relabelling t.goal_facts.1 t.goal_facts.1 h.goal_iff
  initial hfix f hf := by
    have hfact := t.isState_initial.isFact hf
    rw [h.relabelling_mapFact hfact]
    exact (h.initial_iff hfix hfact).mpr hf

end Generator.Symmetry

namespace Task

variable {t : Task} {fixInitial : Bool} {image : Array Nat}

/-- An automorphism is the vertex map of the relabelling that is read off it. -/
theorem vertices_relabelling (h : (t.descriptionGraph fixInitial).Automorphism image) :
    (Generator.ofVertices_symmetry h).relabelling.vertices = image := by
  have hs := Generator.ofVertices_symmetry h
  refine Relabelling.eq_of_getD_eq ?_ fun v hv => ?_
  · rw [Relabelling.size_vertices, h.size_eq, size_descriptionGraph]
  · rw [h.size_eq, size_descriptionGraph] at hv
    refine Relabelling.forall_vertices (p := fun v =>
      (Generator.ofVertices_symmetry h).relabelling.vertices.getD v 0 = image.getD v 0)
      (fun v => ?_) (fun f hf => ?_) (fun op => ?_) hv
    · rw [Relabelling.getD_vertices_var]
      exact Generator.ofVertices_var v.isLt
    · rw [Relabelling.getD_vertices_fact _ hf, hs.relabelling_mapFact hf]
      exact (Generator.factVertex_mapFact h hf).2.1
    · rw [Relabelling.getD_vertices_operator]
      exact (Generator.operatorVertex_mapOperator h op.isLt).2.1

/-- The automorphisms of the description graph are the relabellings that keep the task, and the generator that
is read off such a permutation is that relabelling and passes the check. -/
theorem isAutomorphism_iff_relabelling (t : Task) (fixInitial : Bool) (image : Array Nat)
    (hperm : image.toList.Perm (List.range (t.descriptionGraph fixInitial).size)) :
    ((t.descriptionGraph fixInitial).isAutomorphism image = true ↔
      ∃ r : Relabelling t, r.Keeps fixInitial ∧ r.vertices = image) ∧
    ∀ r : Relabelling t, r.Keeps fixInitial → r.vertices = image →
      Generator.ofVertices t image = r.generator ∧
        (Generator.ofVertices t image).preserves t fixInitial = true := by
  refine ⟨⟨fun haut => ?_, ?_⟩, ?_⟩
  · have h := ColoredGraph.Automorphism.of_perm hperm haut
    exact ⟨_, (Generator.ofVertices_symmetry h).keeps_relabelling, vertices_relabelling h⟩
  · rintro ⟨r, hr, rfl⟩
    exact hr.isAutomorphism_vertices
  · rintro r hr rfl
    rw [r.ofVertices_vertices]
    exact ⟨rfl, hr.preserves_generator⟩

/-- Two switches that are alike, but for the order of their values. -/
def mirroredSwitches : Task where
  vars := #[⟨"a", ["off", "on"]⟩, ⟨"b", ["on", "off"]⟩]
  operators := #[⟨"flip a", 1, [⟨0, 0⟩], [⟨0, 1⟩]⟩, ⟨"flip b", 1, [⟨1, 1⟩], [⟨1, 0⟩]⟩]
  initial := #[0, 1]
  goal := [⟨0, 1⟩, ⟨1, 0⟩]
  normalized := by decide +kernel
  faultless := by decide +kernel

/-- The switches are exchanged, and the first value of each with the second value of the other. -/
theorem mirroredSwitches_relabelling : ∃ r : Relabelling mirroredSwitches,
    r.Keeps true ∧ r.vertices = #[1, 0, 5, 4, 3, 2, 7, 6] ∧
      r.generator = ⟨#[1, 0], #[#[1, 0], #[1, 0]], #[1, 0], #[1, 0]⟩ ∧
        r.generator.preserves mirroredSwitches true = true := by
  obtain ⟨hiff, hall⟩ := isAutomorphism_iff_relabelling mirroredSwitches true #[1, 0, 5, 4, 3, 2, 7, 6]
    (by decide +kernel)
  obtain ⟨r, hr, hvertices⟩ := hiff.mp (by decide +kernel)
  obtain ⟨hgenerator, hpreserves⟩ := hall r hr hvertices
  rw [hgenerator] at hpreserves
  exact ⟨r, hr, hvertices, hgenerator.symm.trans (by decide +kernel), hpreserves⟩

end Task

end RankedPlans
