import RankedPlans.Proofs.Symmetry.OrbitMinimum

/-! Symmetries commute with the operators of a task, so all plans of an orbit have the same fate from an initial
state that the symmetries keep; the symmetric plans of a plan are the rest of its orbit, as far as the limits
allow. -/

namespace RankedPlans

variable {t : Task} {plan image : Plan}

namespace Generator.Symmetry

variable {g : Generator} {fixInitial : Bool} {s : State}

/-- A plan from the image of a state does what its preimage does from the state itself. -/
theorem run?_mapState (h : Symmetry t fixInitial g) (hs : t.IsState s)
    (hplan : ∀ op ∈ plan, op < t.operators.size) : t.run? (g.mapState s) (g.mapPlan plan) =
      (t.run? s plan).map fun (final, cost) => (g.mapState final, cost) := by
  -- The induction is on the plan from any state: the image of the next state is the next state of the image.
  induction plan generalizing s with
  | nil => rfl
  | cons op plan ih =>
    obtain ⟨hop, hplan⟩ := List.forall_mem_cons.mp hplan
    have happlicable := h.mem_applicable_mapState hs hop
    rw [Task.mem_applicable_iff, Task.mem_applicable_iff] at happlicable
    have hrest := ih (hs.apply op) hplan
    rw [← h.apply_mapState hs hop] at hrest
    rw [mapPlan, List.map_cons, Task.run?, Task.run?, ← mapPlan, hrest, h.cost_eq hop]
    simp only [happlicable]
    split
    · cases t.run? (t.apply s op) plan <;> rfl
    · rfl

/-- The image of a sequence of operators is a plan exactly if the sequence is one, and costs the same. -/
theorem planCost?_mapPlan_eq (h : Symmetry t true g) (hplan : ∀ op ∈ plan, op < t.operators.size) :
    t.planCost? (g.mapPlan plan) = t.planCost? plan := by
  have hrun := h.run?_mapState t.isState_initial hplan
  rw [h.mapState_initial rfl] at hrun
  unfold Task.planCost?
  rw [hrun]
  cases hend : t.run? t.initial plan with
  | none => rfl
  | some r =>
    have hgoal := h.isGoal_mapState (t.isState_initial.run? hend)
    simp only [Option.map_some, hgoal]

end Generator.Symmetry

namespace SymmetryGroup

open RankedPlans.Task

section Orbit

variable {g : SymmetryGroup} {limit : Option Nat}
  (hg : ∀ gen ∈ g.generators.toList, ∃ σ : Equiv.Perm (Fin t.operators.size), vertexMap σ = gen.operators)
  (hplan : ∀ op ∈ plan, op < t.operators.size)

include hg hplan in
/-- Images that are told apart by themselves are other members of the orbit of a plan, each listed once. -/
theorem images_id_spec : (plan :: (g.images id plan).map (·.1)).Nodup ∧
    ∀ x ∈ g.images id plan, x.1 ∈ g.planOrbit t plan ∧ x.2 = x.1 := by
  obtain ⟨w, hrecorded, hmet, -⟩ := exists_walk hg hplan id
  have hkeeps : ∀ x ∈ w.met.toList, x.1 ∈ g.planOrbit t plan ∧ x.2 = x.1 :=
    fun x hx => hrecorded.keeps x (Array.mem_toList_iff.mp hx)
  have hnd := hrecorded.nodup
  rw [List.map_congr_left fun x hx => (hkeeps x hx).2] at hnd
  rw [hmet] at hnd hkeeps
  exact ⟨hnd, (List.forall_mem_cons.mp hkeeps).2⟩

include hg hplan in
/-- With room for the whole orbit every other member of it is among the images. -/
theorem mem_images_id (hroom : (g.planOrbit t plan).ncard ≤ g.orbitLimit) (himage : image ∈ g.planOrbit t plan)
    (hne : image ≠ plan) : image ∈ (g.images id plan).map (·.1) := by
  have hkeys : {k | k = plan ∨ ∃ x ∈ g.images id plan, x.2 = k} = id '' g.planOrbit t plan :=
    keys_images_eq hg hplan (fun gen _ x _ y _ heq => congrArg gen.mapPlan heq) (by rwa [Set.image_id])
  rw [Set.image_id] at hkeys
  rw [← hkeys] at himage
  obtain ⟨x, hx, heq⟩ := himage.resolve_left hne
  exact List.mem_map.mpr ⟨x, hx, ((images_id_spec hg hplan).2 x hx).2.symm.trans heq⟩

/-- The symmetric plans are the first images, up to the limit. -/
theorem symmetricPlans_eq (hfix : g.fixesInitial = true) (plan : Plan) (limit : Option Nat) :
    g.symmetricPlans plan limit = limit.elim id List.take ((g.images id plan).map (·.1)) := by
  unfold symmetricPlans
  rcases limit with - | - | n <;> simp [hfix]

/-- The symmetric plans stay within the limit. -/
theorem length_symmetricPlans_le (hfix : g.fixesInitial = true) {n : Nat} (hn : n ∈ limit) :
    (g.symmetricPlans plan limit).length ≤ n := by
  obtain rfl := Option.mem_def.mp hn
  rw [symmetricPlans_eq hfix]
  exact List.length_take_le ..

/-- The symmetric plans are among the images, in their order. -/
theorem symmetricPlans_sublist (hfix : g.fixesInitial = true) :
    (g.symmetricPlans plan limit).Sublist ((g.images id plan).map (·.1)) := by
  rw [symmetricPlans_eq hfix]
  cases limit with
  | none => exact List.Sublist.refl _
  | some n => exact List.take_sublist ..

include hg hplan in
theorem mem_planOrbit_of_mem_symmetricPlans (hfix : g.fixesInitial = true)
    (himage : image ∈ g.symmetricPlans plan limit) : image ∈ g.planOrbit t plan := by
  obtain ⟨x, hx, rfl⟩ := List.mem_map.mp ((symmetricPlans_sublist hfix).subset himage)
  exact ((images_id_spec hg hplan).2 x hx).1

include hg hplan in
/-- If orbit and limit leave room, the symmetric plans are all images. -/
theorem symmetricPlans_eq_images (hfix : g.fixesInitial = true)
    (hlimit : ∀ n ∈ limit, (g.planOrbit t plan).ncard ≤ n + 1) :
    g.symmetricPlans plan limit = (g.images id plan).map (·.1) := by
  rw [symmetricPlans_eq hfix]
  cases limit with
  | none => rfl
  | some n =>
    refine List.take_of_length_le ?_
    obtain ⟨hnd, hspec⟩ := images_id_spec hg hplan
    have hsub : (↑(plan :: (g.images id plan).map (·.1)).toFinset : Set Plan) ⊆ g.planOrbit t plan := by
      intro image himage
      rcases List.mem_cons.mp (List.mem_toFinset.mp himage) with rfl | himage
      · exact self_mem_planOrbit hplan
      · obtain ⟨x, hx, rfl⟩ := List.mem_map.mp himage
        exact (hspec x hx).1
    have hcard := Set.ncard_le_ncard hsub (finite_planOrbit t g plan)
    rw [Set.ncard_coe_finset, List.toFinset_card_of_nodup hnd, List.length_cons] at hcard
    exact Nat.le_of_succ_le_succ (hcard.trans (hlimit n rfl))

end Orbit

section OfTask

variable {policy : SymmetryPolicy} {fixInitial : Bool}

@[simp] theorem ofTask_fixesInitial (t : Task) (policy : SymmetryPolicy) (fixInitial : Bool) :
    (ofTask t policy fixInitial).fixesInitial = fixInitial := rfl

/-- All members of an orbit have the same fate, if the generators keep the initial state. -/
theorem planCost?_eq_of_mem_planOrbit (hplan : ∀ op ∈ plan, op < t.operators.size)
    (himage : image ∈ (ofTask t policy true).planOrbit t plan) : t.planCost? image = t.planCost? plan := by
  refine planOrbit_induction (p := fun image => t.planCost? image = t.planCost? plan) hplan rfl
    (fun gen hgen image himage heq => ?_) himage
  obtain ⟨r, hr, rfl⟩ := ofTask_relabelling hgen
  exact (hr.symmetry.planCost?_mapPlan_eq (lt_of_mem_planOrbit hplan himage)).trans heq

/-- Every generator of a computed group commutes with the operators: the image of an operator is applicable in the
image of a state exactly if the operator is in the state, leads to the image of the next state and costs as much, and
goals go to goals. So the symmetric plans of a sequence of operators are other sequences with the same fate, and all
of its orbit if that fits the limits. -/
theorem ofTask_equivariant (t : Task) (policy : SymmetryPolicy) :
    (∀ fixInitial, ∀ gen ∈ (ofTask t policy fixInitial).generators, ∀ s, t.IsState s →
      (t.isGoal (gen.mapState s) = t.isGoal s) ∧
      ∀ op < t.operators.size, gen.mapOperator op < t.operators.size ∧
        (t.operator (gen.mapOperator op)).applicable (gen.mapState s) = (t.operator op).applicable s ∧
        gen.mapState (t.apply s op) = t.apply (gen.mapState s) (gen.mapOperator op) ∧
        (t.operator (gen.mapOperator op)).cost = (t.operator op).cost) ∧
    ∀ plan : Plan, (∀ op ∈ plan, op < t.operators.size) → ∀ limit : Option Nat,
      (∀ n ∈ limit, ((ofTask t policy true).symmetricPlans plan limit).length ≤ n) ∧
      (plan :: (ofTask t policy true).symmetricPlans plan limit).Nodup ∧
      (∀ image ∈ (ofTask t policy true).symmetricPlans plan limit,
        image ∈ (ofTask t policy true).planOrbit t plan ∧ t.planCost? image = t.planCost? plan) ∧
      (((ofTask t policy true).planOrbit t plan).ncard ≤ policy.orbitSize →
        (∀ n ∈ limit, ((ofTask t policy true).planOrbit t plan).ncard ≤ n + 1) →
        ∀ image ∈ (ofTask t policy true).planOrbit t plan, image ≠ plan →
          image ∈ (ofTask t policy true).symmetricPlans plan limit) := by
  refine ⟨fun fixInitial gen hgen s hs => ?_, fun plan hplan limit => ?_⟩
  · obtain ⟨r, hr, rfl⟩ := ofTask_relabelling (Array.mem_toList_iff.mpr hgen)
    have h := hr.symmetry
    refine ⟨Bool.eq_iff_iff.mpr (h.isGoal_mapState hs), fun op hop => ?_⟩
    have happlicable := h.mem_applicable_mapState hs hop
    rw [mem_applicable_iff, mem_applicable_iff] at happlicable
    exact ⟨h.operator_lt hop,
      Bool.eq_iff_iff.mpr (by simpa only [h.operator_lt hop, hop, true_and] using happlicable),
      (h.apply_mapState hs hop).symm, h.cost_eq hop⟩
  · have hfix := ofTask_fixesInitial t policy true
    have hgens : ∀ gen ∈ (ofTask t policy true).generators.toList,
        ∃ σ : Equiv.Perm (Fin t.operators.size), vertexMap σ = gen.operators := fun _ => ofTask_operators
    obtain ⟨hnd, hspec⟩ := images_id_spec hgens hplan
    refine ⟨fun n hn => length_symmetricPlans_le hfix hn, hnd.sublist ((symmetricPlans_sublist hfix).cons_cons _),
      fun image himage => ?_, fun hroom hlimit image himage hne => ?_⟩
    · obtain ⟨x, hx, rfl⟩ := List.mem_map.mp ((symmetricPlans_sublist hfix).subset himage)
      exact ⟨(hspec x hx).1, planCost?_eq_of_mem_planOrbit hplan (hspec x hx).1⟩
    · rw [symmetricPlans_eq_images hgens hplan hfix hlimit]
      exact mem_images_id hgens hplan hroom himage hne

/-- Three switches that are alike may be switched on in another order. -/
theorem ofTask_equivariant_threeSwitches :
    (∀ gen ∈ (ofTask threeSwitches {} true).generators,
      gen.mapState (threeSwitches.apply threeSwitches.initial 1) =
        threeSwitches.apply (gen.mapState threeSwitches.initial) (gen.mapOperator 1)) ∧
    [1, 2, 0] ∈ (ofTask threeSwitches {} true).symmetricPlans [2, 1, 0] (some 5) := by
  obtain ⟨hcommutes, hplans⟩ := ofTask_equivariant threeSwitches {}
  refine ⟨fun gen hgen => ((hcommutes true gen hgen _ threeSwitches.isState_initial).2 1 (by decide)).2.2.1, ?_⟩
  have hsize := ncard_planOrbit_le threeSwitches (ofTask threeSwitches {} true) [2, 1, 0]
  have himage : [1, 2, 0] ∈ (ofTask threeSwitches {} true).planOrbit threeSwitches [2, 1, 0] := by
    have hgen : (ofTask threeSwitches {} true).generator 0 ∈
        (ofTask threeSwitches {} true).generators.toList := by
      rw [ofTask_threeSwitches]
      decide
    have hself : [2, 1, 0] ∈ (ofTask threeSwitches {} true).planOrbit threeSwitches [2, 1, 0] :=
      self_mem_planOrbit (by decide)
    have hmem := mapPlan_mem_planOrbit (fun _ => ofTask_operators) (by decide) hgen hself
    rw [ofTask_threeSwitches] at hmem ⊢
    exact hmem
  exact (hplans [2, 1, 0] (by decide) (some 5)).2.2.2 (hsize.trans (by decide))
    (fun n hn => by cases hn; exact hsize) [1, 2, 0] himage (by decide)

end OfTask

end SymmetryGroup

end RankedPlans
