import RankedPlans.Proofs.Symmetry.Description
import RankedPlans.Symmetry.Generator

/-! Automorphisms of the description graph act on a task: their images of a state and an operator behave
like the state and the operator themselves. -/

namespace RankedPlans.Generator

open RankedPlans.Task

variable {t : Task} {g : Generator} {fixInitial : Bool} {f f' : Fact} {s : State} {op v w : Nat}

/-- A relabelling of variables, values and operators that a task does not notice. -/
structure Symmetry (t : Task) (fixInitial : Bool) (g : Generator) : Prop where
  var_lt : ∀ {v}, v < t.vars.size → g.vars.getD v 0 < t.vars.size
  var_injective : ∀ {v w}, v < t.vars.size → w < t.vars.size →
    g.vars.getD v 0 = g.vars.getD w 0 → v = w
  isFact : ∀ {f}, t.IsFact f → t.IsFact (g.mapFact f)
  fact_injective : ∀ {f f'}, t.IsFact f → t.IsFact f' → g.mapFact f = g.mapFact f' → f = f'
  operator_lt : ∀ {op}, op < t.operators.size → g.mapOperator op < t.operators.size
  unmapOperator_mapOperator : ∀ {op}, op < t.operators.size → g.unmapOperator (g.mapOperator op) = op
  cost_eq : ∀ {op}, op < t.operators.size →
    (t.operator (g.mapOperator op)).cost = (t.operator op).cost
  linked_iff : ∀ {op f} (link : Link), op < t.operators.size → t.IsFact f →
    (g.mapFact f ∈ t.linked (g.mapOperator op) link ↔ f ∈ t.linked op link)
  goal_iff : ∀ {f}, t.IsFact f → (g.mapFact f ∈ t.goal ↔ f ∈ t.goal)
  initial_iff : fixInitial = true → ∀ {f}, t.IsFact f →
    ((g.mapFact f).holds t.initial = true ↔ f.holds t.initial = true)

theorem iff_of_ite_eq {p q : Prop} [Decidable p] [Decidable q]
    (h : (if p then 1 else 0) = if q then 1 else 0) : p ↔ q := by
  by_cases hp : p <;> by_cases hq : q <;> simp_all

section OfVertices

variable {image : Array Nat}

theorem ofVertices_var (hv : v < t.vars.size) :
    (ofVertices t image).vars.getD v 0 = image.getD v 0 := by
  simp [ofVertices, VertexLayout.ofTask, hv]

theorem ofVertices_operator (hop : op < t.operators.size) : (ofVertices t image).mapOperator op =
    image.getD (t.layout.operatorVertex op) 0 - t.layout.operatorVertex 0 := by
  simp [mapOperator, ofVertices, VertexLayout.ofTask, hop]

theorem ofVertices_fact (hf : t.IsFact f) : (ofVertices t image).mapFact f = ⟨image.getD f.var 0,
    image.getD (t.layout.factVertex f) 0 - t.layout.factVertex ⟨image.getD f.var 0, 0⟩⟩ := by
  obtain ⟨v, hv, hvalue⟩ := hf
  obtain ⟨hlt, rfl⟩ := Array.getElem?_eq_some_iff.mp hv
  rw [mapFact, ofVertices_var hlt]
  refine congrArg (Fact.mk (image.getD f.var 0)) ?_
  simp [ofVertices, VertexLayout.ofTask, hvalue, hlt]

variable (h : (t.descriptionGraph fixInitial).Automorphism image)
include h

/-- The image of a fact is the fact whose vertex is the image of its vertex. -/
theorem factVertex_mapFact (hf : t.IsFact f) : t.IsFact ((ofVertices t image).mapFact f) ∧
    t.layout.factVertex ((ofVertices t image).mapFact f) = image.getD (t.layout.factVertex f) 0 ∧
    t.factKey fixInitial ((ofVertices t image).mapFact f) = t.factKey fixInitial f := by
  obtain ⟨f', hf', hvertex, hkey⟩ := image_factVertex h hf
  have hedge := h.edge (factVertex_lt_size hf) ((hasEdge_value hf hf.lt).mpr rfl)
  rw [hvertex, hasEdge_value hf' (image_var h hf.lt)] at hedge
  have heq : (ofVertices t image).mapFact f = f' := by
    rw [ofVertices_fact hf, hvertex, ← hedge]
    obtain ⟨var, value⟩ := f'
    refine congrArg (Fact.mk var) ?_
    simp only [VertexLayout.factVertex]
    omega
  rw [heq]
  exact ⟨hf', hvertex.symm, hkey⟩

theorem operatorVertex_mapOperator (hop : op < t.operators.size) :
    (ofVertices t image).mapOperator op < t.operators.size ∧
    t.layout.operatorVertex ((ofVertices t image).mapOperator op) =
      image.getD (t.layout.operatorVertex op) 0 ∧
    (t.operator ((ofVertices t image).mapOperator op)).cost = (t.operator op).cost := by
  obtain ⟨op', hop', hvertex, hcost⟩ := image_operatorVertex h hop
  have heq : (ofVertices t image).mapOperator op = op' := by
    rw [ofVertices_operator hop, hvertex]
    simp only [VertexLayout.operatorVertex]
    omega
  rw [heq]
  exact ⟨hop', hvertex.symm, hcost⟩

theorem mapOperator_injective {op' : Nat} (hop : op < t.operators.size)
    (hop' : op' < t.operators.size)
    (heq : (ofVertices t image).mapOperator op = (ofVertices t image).mapOperator op') : op = op' := by
  have hvertex := (operatorVertex_mapOperator h hop).2.1
  rw [heq, (operatorVertex_mapOperator h hop').2.1] at hvertex
  exact operatorVertex_injective
    (h.injective (operatorVertex_lt_size hop) (operatorVertex_lt_size hop') hvertex.symm)

theorem ofVertices_unmapOperator (hop : op < t.operators.size) :
    (ofVertices t image).unmapOperator ((ofVertices t image).mapOperator op) = op := by
  have hsize : (ofVertices t image).operators.size = t.operators.size := by
    simp [ofVertices, VertexLayout.ofTask]
  have hget : ∀ {op}, op < t.operators.size →
      (ofVertices t image).operators[op]? = some ((ofVertices t image).mapOperator op) := by
    intro op hop
    rw [mapOperator, Array.getD_eq_getD_getElem?, Array.getElem?_eq_getElem (hsize ▸ hop)]
    rfl
  have hnd : (ofVertices t image).operators.toList.Nodup := by
    rw [List.nodup_iff_getElem?_ne_getElem?]
    intro i j hij hj heq
    rw [Array.length_toList, hsize] at hj
    rw [Array.getElem?_toList, Array.getElem?_toList, hget (by omega), hget hj] at heq
    exact Nat.ne_of_lt hij (mapOperator_injective h (by omega) hj (Option.some.inj heq))
  have hpos := getElem?_positions hnd (hget hop) (operatorVertex_mapOperator h hop).1
  rw [unmapOperator, Array.getD_eq_getD_getElem?]
  exact congrArg (Option.getD · 0) hpos

/-- Every automorphism of the description graph is a symmetry of the task. -/
theorem ofVertices_symmetry : Symmetry t fixInitial (ofVertices t image) where
  var_lt hv := by
    rw [ofVertices_var hv]
    exact image_var h hv
  var_injective hv hw heq := by
    rw [ofVertices_var hv, ofVertices_var hw] at heq
    exact h.injective (var_lt_size hv) (var_lt_size hw) heq
  isFact hf := (factVertex_mapFact h hf).1
  fact_injective hf hf' heq := by
    have hvertex := (factVertex_mapFact h hf).2.1
    rw [heq, (factVertex_mapFact h hf').2.1] at hvertex
    exact factVertex_injective hf hf'
      (h.injective (factVertex_lt_size hf') (factVertex_lt_size hf) hvertex).symm
  operator_lt hop := (operatorVertex_mapOperator h hop).1
  unmapOperator_mapOperator hop := ofVertices_unmapOperator h hop
  cost_eq hop := (operatorVertex_mapOperator h hop).2.2
  linked_iff link hop hf := by
    obtain ⟨hfact, hvertex, -⟩ := factVertex_mapFact h hf
    obtain ⟨hlt, hopvertex, -⟩ := operatorVertex_mapOperator h hop
    rw [← hasEdge_operator fixInitial hlt hfact, ← hasEdge_operator fixInitial hop hf, hvertex, hopvertex]
    exact h.edge_iff (fun _ => hasEdge_lt_size) (operatorVertex_lt_size hop) (factVertex_lt_size hf)
  goal_iff hf := by
    obtain ⟨-, -, hkey⟩ := factVertex_mapFact h hf
    simp only [factKey, List.cons.injEq, true_and] at hkey
    exact iff_of_ite_eq hkey.1
  initial_iff hfix f hf := by
    obtain ⟨-, -, hkey⟩ := factVertex_mapFact h hf
    simp only [factKey, List.cons.injEq, true_and, hfix, Bool.true_and, and_true] at hkey
    exact iff_of_ite_eq hkey.2

end OfVertices

@[simp] theorem size_mapState (g : Generator) (s : State) : (g.mapState s).size = s.size := by
  rw [mapState]
  exact (size_foldl_setIfInBounds (fun p : Nat × Nat => (g.mapFact ⟨p.2, p.1⟩).var)
    (fun p => (g.mapFact ⟨p.2, p.1⟩).value) s.toList.zipIdx _).trans Array.size_replicate

namespace Symmetry

variable (h : Symmetry t fixInitial g)
include h

theorem exists_var (hw : w < t.vars.size) : ∃ v, v < t.vars.size ∧ g.vars.getD v 0 = w :=
  exists_preimage (l := List.range t.vars.size) (fun _ => List.mem_range.mpr) (fun _ => h.var_lt)
    (fun _ _ => h.var_injective) hw

theorem exists_fact (hf : t.IsFact f) : ∃ f', t.IsFact f' ∧ g.mapFact f' = f :=
  exists_preimage (fun _ => mem_facts.mpr) (fun _ => h.isFact) (fun _ _ => h.fact_injective) hf

theorem exists_operator (hop : op < t.operators.size) :
    ∃ op', op' < t.operators.size ∧ g.mapOperator op' = op :=
  exists_preimage (l := List.range t.operators.size) (fun _ => List.mem_range.mpr)
    (fun _ => h.operator_lt) (fun op op' hop hop' heq => by
      rw [← h.unmapOperator_mapOperator hop, heq, h.unmapOperator_mapOperator hop']) hop

theorem unmapOperator_spec (hop : op < t.operators.size) :
    g.unmapOperator op < t.operators.size ∧ g.mapOperator (g.unmapOperator op) = op := by
  obtain ⟨op', hop', rfl⟩ := h.exists_operator hop
  rw [h.unmapOperator_mapOperator hop']
  exact ⟨hop', rfl⟩

theorem mapFact_var_iff (hf : t.IsFact f) (hf' : t.IsFact f') :
    (g.mapFact f).var = (g.mapFact f').var ↔ f.var = f'.var :=
  ⟨h.var_injective hf.lt hf'.lt, fun heq => congrArg (g.vars.getD · 0) heq⟩

/-- The image of a state has the images of its facts. -/
theorem holds_mapFact (hs : t.IsState s) (hf : f.holds s = true) :
    (g.mapFact f).holds (g.mapState s) = true := by
  have hmem : (f.value, f.var) ∈ s.toList.zipIdx :=
    List.mk_mem_zipIdx_iff_getElem?.mpr (by simpa using Fact.holds_iff.mp hf)
  have hnd : (s.toList.zipIdx.map fun p => (g.mapFact ⟨p.2, p.1⟩).var).Nodup := by
    rw [show (fun p : Nat × Nat => (g.mapFact ⟨p.2, p.1⟩).var) = (g.vars.getD · 0) ∘ Prod.snd from rfl,
      ← List.map_map, List.zipIdx_map_snd]
    refine List.Nodup.map_on (fun v hv w hw => ?_) List.nodup_range'
    simp only [List.mem_range', Array.length_toList, hs.size_eq] at hv hw
    exact h.var_injective (by omega) (by omega)
  rw [Fact.holds_iff]
  refine getElem?_foldl_setIfInBounds_of_mem (fun p : Nat × Nat => (g.mapFact ⟨p.2, p.1⟩).var)
    (fun p => (g.mapFact ⟨p.2, p.1⟩).value) hmem hnd ?_
  rw [Array.size_replicate, hs.size_eq]
  exact (h.isFact (hs.isFact hf)).lt

theorem holds_mapState_iff (hs : t.IsState s) (hf : t.IsFact f) :
    (g.mapFact f).holds (g.mapState s) = true ↔ f.holds s = true := by
  refine ⟨fun hold => ?_, h.holds_mapFact hs⟩
  obtain ⟨f', hvar, hf'⟩ := hs.exists_holds hf.lt
  have hfact := hs.isFact hf'
  have heq := Fact.eq_of_holds hold (h.holds_mapFact hs hf')
    ((h.mapFact_var_iff hf hfact).mpr hvar.symm)
  rwa [h.fact_injective hf hfact heq]

theorem isState_mapState (hs : t.IsState s) : t.IsState (g.mapState s) := by
  refine ⟨(g.size_mapState s).trans hs.size_eq, fun {f} hf => ?_⟩
  have hlt : f.var < (g.mapState s).size := (Array.getElem?_eq_some_iff.mp (Fact.holds_iff.mp hf)).1
  rw [size_mapState, hs.size_eq] at hlt
  obtain ⟨v, hv, hvar⟩ := h.exists_var hlt
  obtain ⟨f', rfl, hf'⟩ := hs.exists_holds hv
  rw [Fact.eq_of_holds hf (h.holds_mapFact hs hf') hvar.symm]
  exact h.isFact (hs.isFact hf')

theorem mapState_injective {s' : State} (hs : t.IsState s) (hs' : t.IsState s')
    (heq : g.mapState s = g.mapState s') : s = s' := by
  refine hs.ext hs' fun f hf => ?_
  have hfact := hs.isFact hf
  rwa [← h.holds_mapState_iff hs' hfact, ← heq, h.holds_mapState_iff hs hfact]

/-- All facts of a list hold in a state if their images hold in its image. -/
theorem all_holds_iff {facts facts' : List Fact} (hs : t.IsState s) (hfacts : ∀ f ∈ facts, t.IsFact f)
    (hfacts' : ∀ f ∈ facts', t.IsFact f)
    (hiff : ∀ {f}, t.IsFact f → (g.mapFact f ∈ facts' ↔ f ∈ facts)) :
    (∀ f ∈ facts', f.holds (g.mapState s) = true) ↔ ∀ f ∈ facts, f.holds s = true := by
  constructor
  · intro hall f hf
    have hfact := hfacts f hf
    exact (h.holds_mapState_iff hs hfact).mp (hall _ ((hiff hfact).mpr hf))
  · intro hall f hf
    obtain ⟨f', hf', rfl⟩ := h.exists_fact (hfacts' f hf)
    exact (h.holds_mapState_iff hs hf').mpr (hall f' ((hiff hf').mp hf))

theorem isGoal_mapState (hs : t.IsState s) : t.isGoal (g.mapState s) = true ↔ t.isGoal s = true := by
  rw [isGoal_iff, isGoal_iff]
  exact h.all_holds_iff hs t.goal_facts.1 t.goal_facts.1 h.goal_iff

theorem mem_applicable_mapState (hs : t.IsState s) (hop : op < t.operators.size) :
    g.mapOperator op ∈ t.applicable (g.mapState s) ↔ op ∈ t.applicable s := by
  rw [mem_applicable_iff, mem_applicable_iff, Operator.applicable_iff, Operator.applicable_iff]
  refine and_congr (iff_of_true (h.operator_lt hop) hop) ?_
  exact h.all_holds_iff hs (t.operator_facts op).1 (t.operator_facts _).1
    (h.linked_iff .precondition hop)

/-- Applying the image of an operator to the image of a state gives the image of the next state. -/
theorem apply_mapState (hs : t.IsState s) (hop : op < t.operators.size) :
    t.apply (g.mapState s) (g.mapOperator op) = g.mapState (t.apply s op) := by
  have hs' := h.isState_mapState hs
  refine (hs'.apply _).ext (h.isState_mapState (hs.apply op)) fun f hf => ?_
  obtain ⟨f, hfact, rfl⟩ := h.exists_fact ((hs'.apply _).isFact hf)
  rw [holds_apply_iff hs' (h.isFact hfact)] at hf
  rw [h.holds_mapState_iff (hs.apply op) hfact, holds_apply_iff hs hfact]
  have heff : ∀ {f}, t.IsFact f → (g.mapFact f ∈ (t.operator (g.mapOperator op)).effects ↔
      f ∈ (t.operator op).effects) := h.linked_iff .effect hop
  refine hf.imp (heff hfact).mp fun ⟨hvar, hold⟩ => ⟨fun hmem => hvar ?_,
    (h.holds_mapState_iff hs hfact).mp hold⟩
  obtain ⟨e, he, hev⟩ := List.mem_map.mp hmem
  have hefact := (t.operator_facts op).2.1 e he
  exact List.mem_map.mpr ⟨g.mapFact e, (heff hefact).mpr he, (h.mapFact_var_iff hefact hfact).mpr hev⟩

theorem mapState_initial (hfix : fixInitial = true) : g.mapState t.initial = t.initial := by
  have hs := t.isState_initial
  refine (h.isState_mapState hs).ext hs fun f hf => ?_
  obtain ⟨f, hfact, rfl⟩ := h.exists_fact ((h.isState_mapState hs).isFact hf)
  exact (h.initial_iff hfix hfact).mpr ((h.holds_mapState_iff hs hfact).mp hf)

end Symmetry

end RankedPlans.Generator
