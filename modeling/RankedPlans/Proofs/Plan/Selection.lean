import RankedPlans.Cost
import RankedPlans.Plan.Selection
import RankedPlans.Proofs.Plan.Key
import RankedPlans.Proofs.Plan.Reordering
import RankedPlans.Proofs.Symmetry.PlanOrbit
import Std.Data.TreeSet.Lemmas

/-! What a selection keeps: plans with their costs and distinct keys, no more than allowed. A plan that
is offered while there is room is kept or has the key of one that is, and what it brings along costs the
same. -/

namespace RankedPlans

variable {t : Task} {plan other : Plan} {cost cost' : Int}

/-- A plan with its cost as far as costs reach. -/
def CostedPlan.stated (p : CostedPlan) : CostedPlan :=
  ⟨min Cost.top p.cost, p.plan⟩

namespace SelectionRule

variable {r : SelectionRule}

/-- A plan that is offered brings nothing along. -/
def Plain (r : SelectionRule) : Prop :=
  r.reorderNodes = none ∧ r.extend = none

/-- A plan or, if the rule has it so, a reordering of it that is a plan of its cost. -/
def Source (r : SelectionRule) (plan source : Plan) : Prop :=
  source = plan ∨ r.reorderNodes ≠ none ∧ source.Perm plan ∧ r.task.planCost? source = r.task.planCost? plan

theorem Source.planCost?_eq (h : r.Source plan other) : r.task.planCost? other = r.task.planCost? plan := by
  rcases h with rfl | ⟨-, -, hcost⟩
  · rfl
  · exact hcost

theorem Source.mem_iff (h : r.Source plan other) {op : Nat} : op ∈ other ↔ op ∈ plan := by
  rcases h with rfl | ⟨-, hperm, -⟩
  · rfl
  · exact hperm.mem_iff

theorem Source.eq_of_plain (h : r.Source plan other) (hr : r.Plain) : other = plan :=
  h.resolve_right fun ⟨hreordered, _⟩ => hreordered hr.1

/-- The groups in use are symmetries of the task, and those that merge plans keep the initial state. -/
structure Sound (r : SelectionRule) : Prop where
  merge : ∀ g, r.merge = some g → g.Sound r.task ∧ g.fixesInitial = true
  extend : ∀ g, r.extend = some g → g.Sound r.task

theorem Sound.keyOf_spec (h : r.Sound) (hplan : r.task.planCost? plan = some cost) :
    ∃ image, r.task.planCost? image = some cost ∧ image.length = plan.length ∧
      r.keyOf plan = r.key.encode image := by
  unfold keyOf
  cases hmerge : r.merge with
  | none => exact ⟨plan, hplan, rfl, rfl⟩
  | some g =>
    obtain ⟨hg, hfix⟩ := h.merge g hmerge
    exact SymmetryGroup.planKey_spec hg hfix hplan

/-- Plans of one key cost the same. -/
theorem Sound.cost_eq_of_keyOf_eq (h : r.Sound) (hplan : r.task.planCost? plan = some cost)
    (hother : r.task.planCost? other = some cost') (heq : r.keyOf plan = r.keyOf other) :
    cost = cost' := by
  obtain ⟨image, himage, -, hkey⟩ := h.keyOf_spec hplan
  obtain ⟨image', himage', -, hkey'⟩ := h.keyOf_spec hother
  rw [hkey, hkey'] at heq
  exact Task.planCost?_eq_of_perm himage' himage (PlanKey.perm_of_encode_eq heq)

/-- Plans of one key have equally many operators. -/
theorem Sound.length_eq_of_keyOf_eq (h : r.Sound) (hplan : r.task.planCost? plan = some cost)
    (hother : r.task.planCost? other = some cost') (heq : r.keyOf plan = r.keyOf other) :
    plan.length = other.length := by
  obtain ⟨image, -, hlength, hkey⟩ := h.keyOf_spec hplan
  obtain ⟨image', -, hlength', hkey'⟩ := h.keyOf_spec hother
  rw [hkey, hkey'] at heq
  rw [← hlength, ← hlength', (PlanKey.perm_of_encode_eq heq).length_eq]

end SelectionRule

namespace Selection

variable {r : SelectionRule} {s : Selection} {plans : List CostedPlan} {p : CostedPlan}

/-- The plans kept have distinct keys, which are those on record, and are no more than allowed. -/
structure Distinct (r : SelectionRule) (s : Selection) : Prop where
  keys : ∀ key, s.keys.contains key = true ↔ key ∈ s.plans.toList.map (r.keyOf ·.plan)
  nodup : (s.plans.toList.map (r.keyOf ·.plan)).Nodup
  limit : ∀ n, r.limit = some n → s.plans.size ≤ n

theorem empty_distinct (r : SelectionRule) : Distinct r {} := by
  refine ⟨fun key => ?_, .nil, fun n _ => Nat.zero_le n⟩
  rw [show ({} : Selection).keys = ∅ from rfl, Std.TreeSet.contains_emptyc]
  simp

theorem isFull_eq_false_iff : s.isFull r = false ↔ ∀ n, r.limit = some n → s.plans.size < n := by
  rw [isFull, size]
  cases r.limit <;> simp

/-- A plan of a new key may be put last if there is room. -/
theorem Distinct.push (h : Distinct r s) (hroom : s.isFull r = false)
    (hnew : r.keyOf p.plan ∉ s.plans.toList.map (r.keyOf ·.plan)) :
    Distinct r { s with keys := s.keys.insert (r.keyOf p.plan), plans := s.plans.push p } := by
  refine ⟨fun key => ?_, ?_, fun n hn => ?_⟩
  · rw [Std.TreeSet.contains_insert, Bool.or_eq_true, beq_iff_eq, Std.LawfulEqCmp.compare_eq_iff_eq, h.keys,
      Array.toList_push, List.map_append, List.mem_append, List.map_singleton, List.mem_singleton, or_comm,
      eq_comm (a := key)]
  · rw [Array.toList_push, List.map_append, List.map_singleton, List.nodup_append]
    refine ⟨h.nodup, List.nodup_singleton _, fun key hmem other hother heq => hnew ?_⟩
    rw [List.mem_singleton] at hother
    exact hother ▸ heq ▸ hmem
  · rw [Array.size_push]
    exact isFull_eq_false_iff.mp hroom n hn

/-- A plan is kept exactly if there is room and its key is new; it comes last then. -/
theorem Distinct.insert (h : Distinct r s) (p : CostedPlan) : Distinct r (s.insert r p).1 ∧
    ((s.insert r p).2 = false ∧ (s.insert r p).1.plans = s.plans ∧
        (s.isFull r = false → r.keyOf p.plan ∈ s.plans.toList.map (r.keyOf ·.plan)) ∨
      (s.insert r p).2 = true ∧ (s.insert r p).1.plans = s.plans.push p ∧ s.isFull r = false ∧
        r.keyOf p.plan ∉ s.plans.toList.map (r.keyOf ·.plan)) := by
  unfold Selection.insert
  cases hfull : s.isFull r with
  | true => exact ⟨h, .inl ⟨rfl, rfl, nofun⟩⟩
  | false =>
    simp only [Bool.false_eq_true, if_false]
    by_cases hkey : s.keys.contains (r.keyOf p.plan) = true
    · rw [if_pos hkey]
      exact ⟨⟨h.keys, h.nodup, h.limit⟩, .inl ⟨rfl, rfl, fun _ => (h.keys _).mp hkey⟩⟩
    · have hnew : r.keyOf p.plan ∉ s.plans.toList.map (r.keyOf ·.plan) := fun hmem => hkey ((h.keys _).mpr hmem)
      rw [if_neg hkey]
      exact ⟨h.push hfull hnew, .inr ⟨rfl, rfl, trivial, hnew⟩⟩

/-- A selection that keeps these plans, given with their costs. -/
structure Holds (r : SelectionRule) (s : Selection) (plans : List CostedPlan) : Prop where
  plans_eq : s.plans.toList = plans.map CostedPlan.stated
  keys : ∀ key, s.keys.contains key = true ↔ key ∈ plans.map (r.keyOf ·.plan)
  nodup : (plans.map (r.keyOf ·.plan)).Nodup
  limit : ∀ n, r.limit = some n → plans.length ≤ n
  valid : ∀ p ∈ plans, r.task.planCost? p.plan = some p.cost

theorem map_keyOf_stated (h : s.plans.toList = plans.map CostedPlan.stated) :
    s.plans.toList.map (r.keyOf ·.plan) = plans.map (r.keyOf ·.plan) := by
  rw [h, List.map_map]
  rfl

theorem Holds.distinct (h : Holds r s plans) : Distinct r s := by
  have hkeys := map_keyOf_stated (r := r) h.plans_eq
  refine ⟨hkeys ▸ h.keys, hkeys ▸ h.nodup, fun n hn => ?_⟩
  rw [← Array.length_toList, h.plans_eq, List.length_map]
  exact h.limit n hn

theorem Distinct.holds (h : Distinct r s) (hplans : s.plans.toList = plans.map CostedPlan.stated)
    (hvalid : ∀ p ∈ plans, r.task.planCost? p.plan = some p.cost) : Holds r s plans := by
  have hkeys := map_keyOf_stated (r := r) hplans
  refine ⟨hplans, hkeys ▸ h.keys, hkeys ▸ h.nodup, fun n hn => ?_, hvalid⟩
  have hsize := h.limit n hn
  rwa [← Array.length_toList, hplans, List.length_map] at hsize

theorem empty_holds (r : SelectionRule) : Holds r {} [] :=
  (empty_distinct r).holds rfl (List.forall_mem_nil _)

theorem Holds.size_eq (h : Holds r s plans) : s.size = plans.length := by
  rw [size, ← Array.length_toList, h.plans_eq, List.length_map]

/-- The reorderings that are offered along with a plan. -/
def reordered (s : Selection) (r : SelectionRule) (plan : Plan) : List Plan :=
  match r.reorderNodes with
  | some nodes => r.task.reorderings ⟨nodes, s.room r⟩ plan
  | none => []

theorem reordered_source (hplan : r.task.planCost? plan = some cost) :
    ∀ other ∈ s.reordered r plan, r.Source plan other := by
  intro other hother
  unfold reordered at hother
  split at hother
  · rename_i nodes hnodes
    have hcost := (Task.reorderings_spec hplan other hother).trans hplan.symm
    obtain ⟨_, hrun, -⟩ := Task.planCost?_eq_some_iff.mp hplan
    have hall := (Task.reorderings_first _ _ _).subset hother
    have hperm := ((Task.mem_allReorderings_iff (Task.run?_lt hrun)).mp hall).2.1
    exact .inr ⟨hnodes ▸ Option.some_ne_none nodes, hperm, hcost⟩
  · cases hother

theorem offer_of_insert {s' : Selection} (h : s.insert r p = (s', true)) :
    (s.offer r p).1 = match r.extend with
      | none => s'.insertAll r p.cost (s'.reordered r p.plan)
      | some g => (p.plan :: s'.reordered r p.plan).foldl (fun s source =>
          s.insertAll r p.cost (g.symmetricPlans source (s.room r)))
          (s'.insertAll r p.cost (s'.reordered r p.plan)) := by
  rw [offer, h]
  cases r.extend <;> rfl

section Appends

variable {s' s'' : Selection} {q : Plan → Prop}

/-- A later selection keeps what was kept before and after it plans of one cost that have a property. -/
structure Appends (r : SelectionRule) (cost : Int) (q : Plan → Prop) (s s' : Selection) : Prop where
  distinct : Distinct r s'
  plans : ∃ kept : List Plan, (∀ plan ∈ kept, q plan) ∧
    s'.plans.toList = s.plans.toList ++ kept.map fun plan => ⟨cost, plan⟩

theorem Appends.refl (h : Distinct r s) : Appends r cost q s s :=
  ⟨h, [], List.forall_mem_nil _, by simp⟩

theorem Appends.trans (h : Appends r cost q s s') (h' : Appends r cost q s' s'') : Appends r cost q s s'' := by
  obtain ⟨kept, hkept, heq⟩ := h.plans
  obtain ⟨kept', hkept', heq'⟩ := h'.plans
  refine ⟨h'.distinct, kept ++ kept', List.forall_mem_append.mpr ⟨hkept, hkept'⟩, ?_⟩
  rw [heq', heq, List.map_append, List.append_assoc]

theorem Appends.keeps (h : Appends r cost q s s') : s.plans.toList <+: s'.plans.toList := by
  obtain ⟨kept, -, heq⟩ := h.plans
  exact heq ▸ List.prefix_append _ _

theorem Appends.isFull_eq_false (h : Appends r cost q s s') (hroom : s'.isFull r = false) : s.isFull r = false := by
  have hsize : s.plans.size ≤ s'.plans.size := h.keeps.length_le
  rw [isFull_eq_false_iff] at hroom ⊢
  exact fun n hn => Nat.lt_of_le_of_lt hsize (hroom n hn)

theorem Distinct.insert_appends (h : Distinct r s) (hplan : q plan) :
    Appends r cost q s (s.insert r ⟨cost, plan⟩).1 := by
  obtain ⟨hdistinct, ⟨-, heq, -⟩ | ⟨-, heq, -, -⟩⟩ := h.insert ⟨cost, plan⟩
  · exact ⟨hdistinct, [], List.forall_mem_nil _, by rw [heq]; simp⟩
  · exact ⟨hdistinct, [plan], List.forall_mem_singleton.mpr hplan, by rw [heq]; simp⟩

theorem Distinct.insertAll_appends {others : List Plan} (h : Distinct r s) (hothers : ∀ other ∈ others, q other) :
    Appends r cost q s (s.insertAll r cost others) :=
  List.foldlRecOn (motive := Appends r cost q s) others _ (.refl h) fun _ hs other hmem =>
    hs.trans (hs.distinct.insert_appends (hothers other hmem))

theorem Distinct.images_appends {g : SymmetryGroup} {sources : List Plan} (h : Distinct r s)
    (hsources : ∀ source ∈ sources, ∀ limit, ∀ image ∈ g.symmetricPlans source limit, q image) :
    Appends r cost q s (sources.foldl (fun s source => s.insertAll r cost (g.symmetricPlans source (s.room r))) s) :=
  List.foldlRecOn (motive := Appends r cost q s) sources _ (.refl h) fun _ hs source hmem =>
    hs.trans (hs.distinct.insertAll_appends (hsources source hmem _))

section Offer

variable (hplan : r.task.planCost? p.plan = some cost) (hsource : ∀ source, r.Source p.plan source → q source)
  (himages : ∀ g, r.extend = some g → ∀ source, r.Source p.plan source →
    ∀ limit, ∀ image ∈ g.symmetricPlans source limit, q image)
include hplan hsource himages

/-- What an accepted plan brings along is appended after it. -/
theorem Distinct.brought_appends (h : Distinct r s) : Appends r p.cost q (s.insert r p).1 (s.offer r p).1 := by
  have hinsert := (h.insert p).1
  rcases heq : s.insert r p with ⟨s', - | -⟩ <;> rw [heq] at hinsert
  · rw [Selection.offer, heq]
    exact .refl hinsert
  · rw [offer_of_insert heq]
    have hall : Appends r p.cost q s' (s'.insertAll r p.cost (s'.reordered r p.plan)) :=
      Distinct.insertAll_appends hinsert fun other hmem => hsource other (reordered_source hplan other hmem)
    cases hextend : r.extend with
    | none => exact hall
    | some g =>
      refine hall.trans (hall.distinct.images_appends fun source hmem => himages g hextend source ?_)
      rcases List.mem_cons.mp hmem with rfl | hmem
      · exact .inl rfl
      · exact reordered_source hplan source hmem

theorem Distinct.offer_appends (h : Distinct r s) : Appends r p.cost q s (s.offer r p).1 :=
  (h.insert_appends (hsource _ (.inl rfl))).trans (h.brought_appends hplan hsource himages)

/-- A plan that is offered while there is room is kept, or one of its key is. -/
theorem Distinct.keyOf_mem_offer (h : Distinct r s) (hfull : s.isFull r = false) :
    r.keyOf p.plan ∈ (s.offer r p).1.plans.toList.map (r.keyOf ·.plan) := by
  have hinserted : r.keyOf p.plan ∈ (s.insert r p).1.plans.toList.map (r.keyOf ·.plan) := by
    obtain ⟨-, ⟨-, hplans, hkey⟩ | ⟨-, hplans, -⟩⟩ := h.insert p
    · rw [hplans]
      exact hkey hfull
    · rw [hplans]
      simp
  exact List.map_subset _ (h.brought_appends hplan hsource himages).keeps.subset hinserted

end Offer

end Appends

/-- Whatever an offered plan brings along costs the same, and a plan of its key is kept if there is room. -/
theorem Holds.offer (h : Holds r s plans) (hr : r.Sound)
    (hplan : r.task.planCost? p.plan = some p.cost) (hfull : s.isFull r = false) :
    ∃ more, Holds r (s.offer r p.stated).1 (plans ++ more) ∧
      (∀ q ∈ more, q.cost = p.cost ∧ (r.Plain → q = p)) ∧
      r.keyOf p.plan ∈ (plans ++ more).map (r.keyOf ·.plan) := by
  have hsource : ∀ source, r.Source p.plan source →
      r.task.planCost? source = some p.cost ∧ (r.Plain → source = p.plan) := fun source hsource =>
    ⟨hsource.planCost?_eq.trans hplan, hsource.eq_of_plain⟩
  have himages : ∀ g, r.extend = some g → ∀ source, r.Source p.plan source → ∀ limit,
      ∀ image ∈ g.symmetricPlans source limit,
        r.task.planCost? image = some p.cost ∧ (r.Plain → image = p.plan) := by
    intro g hg source hsource' limit image himage
    refine ⟨SymmetryGroup.symmetricPlans_spec (hr.extend g hg) (hsource source hsource').1 image himage, ?_⟩
    exact fun hplain => absurd (hg.symm.trans hplain.2) (Option.some_ne_none g)
  have hafter := h.distinct.offer_appends (p := p.stated) hplan hsource himages
  obtain ⟨kept, hkept, heq⟩ := hafter.plans
  have hplans : (s.offer r p.stated).1.plans.toList =
      (plans ++ kept.map (CostedPlan.mk p.cost)).map CostedPlan.stated := by
    rw [heq, h.plans_eq, List.map_append, List.map_map]
    rfl
  refine ⟨kept.map (CostedPlan.mk p.cost), hafter.distinct.holds hplans ?_, ?_, ?_⟩
  · exact List.forall_mem_append.mpr ⟨h.valid, List.forall_mem_map.mpr fun plan hmem => (hkept plan hmem).1⟩
  · exact List.forall_mem_map.mpr fun plan hmem =>
      ⟨rfl, fun hplain => congrArg (CostedPlan.mk p.cost) ((hkept plan hmem).2 hplain)⟩
  · rw [← map_keyOf_stated hplans]
    exact h.distinct.keyOf_mem_offer (p := p.stated) hplan hsource himages hfull

end Selection

end RankedPlans
