import RankedPlans.Proofs.Plan.Selection
import RankedPlans.Proofs.Symmetry.SymmetricPlans

/-! What is kept of plans that are offered one after the other. One offer may bring many plans along, but whatever
comes of it is appended, costs what the offered plan costs, and goes through the same check of its key, so the plans
kept stay distinct, few enough and in order wherever the room ends. -/

namespace RankedPlans

variable {r : SelectionRule} {plan other : Plan} {cost : Int}

namespace SelectionRule

/-- Images are offered along under symmetries that were computed for the task and keep its initial state. -/
def Computed (r : SelectionRule) : Prop :=
  ∀ g, r.extend = some g → ∃ policy, g = .ofTask r.task policy true

/-- What an accepted plan may bring along: its reorderings, and the images of the plan and of these. -/
def Brings (r : SelectionRule) (plan other : Plan) : Prop :=
  ∃ source, r.Source plan source ∧ (other = source ∨ ∃ g, r.extend = some g ∧ other ∈ g.planOrbit r.task source)

theorem Source.brings {source : Plan} (h : r.Source plan source) : r.Brings plan source :=
  ⟨source, h, .inl rfl⟩

theorem Source.lt_operators {source : Plan} (h : r.Source plan source) (hplan : r.task.planCost? plan = some cost) :
    ∀ op ∈ source, op < r.task.operators.size := by
  obtain ⟨_, hrun, -⟩ := Task.planCost?_eq_some_iff.mp hplan
  exact fun op hop => Task.run?_lt hrun op (h.mem_iff.mp hop)

/-- The images that are offered along are those of a plan or a reordering. -/
theorem Computed.brings (hr : r.Computed) (hplan : r.task.planCost? plan = some cost) :
    ∀ g, r.extend = some g → ∀ source, r.Source plan source → ∀ limit,
      ∀ image ∈ g.symmetricPlans source limit, r.Brings plan image := by
  intro g hg source hsource limit image himage
  obtain ⟨policy, rfl⟩ := hr g hg
  have horbit := SymmetryGroup.mem_planOrbit_of_mem_symmetricPlans (fun _ => SymmetryGroup.ofTask_operators)
    (hsource.lt_operators hplan) (SymmetryGroup.ofTask_fixesInitial ..) himage
  exact ⟨source, hsource, .inr ⟨_, hg, horbit⟩⟩

/-- What is brought along is a plan of the same cost. -/
theorem Brings.planCost?_eq (h : r.Brings plan other) (hr : r.Computed) (hplan : r.task.planCost? plan = some cost) :
    r.task.planCost? other = some cost := by
  obtain ⟨source, hsource, rfl | ⟨g, hg, himage⟩⟩ := h
  · exact hsource.planCost?_eq.trans hplan
  · obtain ⟨policy, rfl⟩ := hr g hg
    have hcost := SymmetryGroup.planCost?_eq_of_mem_planOrbit (hsource.lt_operators hplan) himage
    exact hcost.trans (hsource.planCost?_eq.trans hplan)

end SelectionRule

namespace Selection

variable {s : Selection} {p : CostedPlan} {offers : List CostedPlan}

theorem offer_snd (s : Selection) (r : SelectionRule) (p : CostedPlan) : (s.offer r p).2 = (s.insert r p).2 := by
  rcases heq : s.insert r p with ⟨s', - | -⟩ <;> rw [Selection.offer, heq]
  cases r.extend <;> rfl

/-- A plan that is offered is kept exactly if there is room and its key is new. -/
theorem Distinct.offer_snd_iff (h : Distinct r s) (p : CostedPlan) : (s.offer r p).2 = true ↔
    (∀ n, r.limit = some n → s.plans.size < n) ∧ r.keyOf p.plan ∉ s.plans.toList.map (r.keyOf ·.plan) := by
  rw [offer_snd, ← isFull_eq_false_iff]
  obtain ⟨-, ⟨hflag, -, hkey⟩ | ⟨hflag, -, hroom⟩⟩ := h.insert p
  · rw [hflag]
    exact ⟨nofun, fun ⟨hfull, hnew⟩ => absurd (hkey hfull) hnew⟩
  · rw [hflag]
    exact iff_of_true rfl hroom

/-- The selection after some offers. -/
def ofOffers (r : SelectionRule) (offers : List CostedPlan) : Selection :=
  offers.foldl (fun s p => (s.offer r p).1) {}

@[simp] theorem ofOffers_concat (r : SelectionRule) (offers : List CostedPlan) (p : CostedPlan) :
    ofOffers r (offers ++ [p]) = ((ofOffers r offers).offer r p).1 :=
  List.foldl_concat ..

/-- What some offers have led to: plans of distinct keys in the order of their costs, each brought along by an offered
plan of its cost, and while there is room one for the key of every offered plan. -/
structure Selected (r : SelectionRule) (offers : List CostedPlan) (s : Selection) : Prop where
  distinct : Distinct r s
  sorted : s.plans.toList.Pairwise (·.cost ≤ ·.cost)
  valid : ∀ p ∈ s.plans.toList, r.task.planCost? p.plan = some p.cost
  origin : ∀ p ∈ s.plans.toList, ∃ q ∈ offers, p.cost = q.cost ∧ r.Brings q.plan p.plan
  known : s.isFull r = false → ∀ q ∈ offers, r.keyOf q.plan ∈ s.plans.toList.map (r.keyOf ·.plan)

theorem empty_selected (r : SelectionRule) : Selected r [] {} :=
  ⟨empty_distinct r, .nil, List.forall_mem_nil _, List.forall_mem_nil _, fun _ => List.forall_mem_nil _⟩

/-- One more offer, of a plan that is no cheaper than those before. -/
theorem Selected.offer (h : Selected r offers s) (hr : r.Computed) (hplan : r.task.planCost? p.plan = some p.cost)
    (hcost : ∀ q ∈ offers, q.cost ≤ p.cost) : Selected r (offers ++ [p]) (s.offer r p).1 := by
  have hbrought := h.distinct.offer_appends hplan (fun _ => SelectionRule.Source.brings) (hr.brings hplan)
  obtain ⟨kept, hkept, heq⟩ := hbrought.plans
  have hnew : ∀ new ∈ kept.map (CostedPlan.mk p.cost), new.cost = p.cost ∧ r.Brings p.plan new.plan :=
    List.forall_mem_map.mpr fun plan hmem => ⟨rfl, hkept plan hmem⟩
  refine ⟨hbrought.distinct, ?_, ?_, ?_, fun hroom => ?_⟩
  · rw [heq, List.pairwise_append]
    refine ⟨h.sorted, List.pairwise_map.mpr (List.pairwise_of_forall fun _ _ => Int.le_refl _),
      fun old hold new hmem => ?_⟩
    obtain ⟨q, hq, hold, -⟩ := h.origin old hold
    rw [(hnew new hmem).1, hold]
    exact hcost q hq
  · rw [heq]
    refine List.forall_mem_append.mpr ⟨h.valid, fun new hmem => ?_⟩
    rw [(hnew new hmem).2.planCost?_eq hr hplan, (hnew new hmem).1]
  · rw [heq]
    refine List.forall_mem_append.mpr ⟨fun old hold => ?_, fun new hmem => ⟨p, by simp, hnew new hmem⟩⟩
    obtain ⟨q, hq, horigin⟩ := h.origin old hold
    exact ⟨q, List.mem_append_left _ hq, horigin⟩
  · have hbefore := hbrought.isFull_eq_false hroom
    refine List.forall_mem_append.mpr ⟨fun q hq => ?_, List.forall_mem_singleton.mpr ?_⟩
    · exact List.map_subset _ hbrought.keeps.subset (h.known hbefore q hq)
    · exact h.distinct.keyOf_mem_offer hplan (fun _ => SelectionRule.Source.brings) (hr.brings hplan) hbefore

theorem ofOffers_selected (hr : r.Computed) (hvalid : ∀ p ∈ offers, r.task.planCost? p.plan = some p.cost)
    (hsorted : offers.Pairwise (·.cost ≤ ·.cost)) : Selected r offers (ofOffers r offers) := by
  induction offers using List.reverseRecOn with
  | nil => exact empty_selected r
  | append_singleton offers p ih =>
    obtain ⟨hvalid, hplan⟩ := List.forall_mem_append.mp hvalid
    obtain ⟨hsorted, -, hle⟩ := List.pairwise_append.mp hsorted
    rw [ofOffers_concat]
    exact (ih hvalid hsorted).offer hr (hplan p List.mem_cons_self) fun q hq => hle q hq p List.mem_cons_self

/-- Whatever plans are offered in the order of their costs, under whatever keys and with whatever brought along: those
kept have distinct keys, are no more than allowed, stand in the order of their costs and are plans of these costs. Each
is an offered plan, a reordering of one or an image of these, and costs what that one costs; and while there is room
the key of every offered plan is that of one kept. Of any further plan the offer tells whether there is room and its
key is new, and the plans kept before stay in their places. -/
theorem ofOffers_spec (r : SelectionRule) (hr : r.Computed) (offers : List CostedPlan)
    (hvalid : ∀ p ∈ offers, r.task.planCost? p.plan = some p.cost) (hsorted : offers.Pairwise (·.cost ≤ ·.cost)) :
    ((ofOffers r offers).plans.toList.map (r.keyOf ·.plan)).Nodup ∧
    (∀ n, r.limit = some n → (ofOffers r offers).plans.size ≤ n) ∧
    (ofOffers r offers).plans.toList.Pairwise (·.cost ≤ ·.cost) ∧
    (∀ p ∈ (ofOffers r offers).plans.toList, r.task.planCost? p.plan = some p.cost ∧
      ∃ q ∈ offers, p.cost = q.cost ∧ r.Brings q.plan p.plan) ∧
    ((∀ n, r.limit = some n → (ofOffers r offers).plans.size < n) →
      ∀ q ∈ offers, r.keyOf q.plan ∈ (ofOffers r offers).plans.toList.map (r.keyOf ·.plan)) ∧
    ∀ p, (((ofOffers r offers).offer r p).2 = true ↔
        (∀ n, r.limit = some n → (ofOffers r offers).plans.size < n) ∧
          r.keyOf p.plan ∉ (ofOffers r offers).plans.toList.map (r.keyOf ·.plan)) ∧
      (r.task.planCost? p.plan = some p.cost →
        (ofOffers r offers).plans.toList <+: (ofOffers r (offers ++ [p])).plans.toList) := by
  have h := ofOffers_selected hr hvalid hsorted
  refine ⟨h.distinct.nodup, h.distinct.limit, h.sorted, fun p hp => ⟨h.valid p hp, h.origin p hp⟩,
    fun hroom => h.known (isFull_eq_false_iff.mpr hroom), fun p => ⟨h.distinct.offer_snd_iff p, fun hplan => ?_⟩⟩
  rw [ofOffers_concat]
  exact (h.distinct.offer_appends hplan (fun _ => SelectionRule.Source.brings) (hr.brings hplan)).keeps

/-- Three switches that are alike, with all that an accepted plan may bring along. -/
def threeSwitchesRule : SelectionRule where
  task := SymmetryGroup.threeSwitches
  key := .ordered
  merge := none
  extend := some (.ofTask SymmetryGroup.threeSwitches {} true)
  reorderNodes := some 100
  limit := some 8

/-- The first plan brings the five others along, so the second one that is offered is kept already. -/
theorem ofOffers_spec_threeSwitches :
    (ofOffers threeSwitchesRule [⟨3, [2, 1, 0]⟩, ⟨3, [0, 1, 2]⟩]).plans.size = 6 ∧
    [0, 1, 2] ∈ (ofOffers threeSwitchesRule [⟨3, [2, 1, 0]⟩, ⟨3, [0, 1, 2]⟩]).plans.toList.map
      (threeSwitchesRule.keyOf ·.plan) := by
  have hsize : (ofOffers threeSwitchesRule [⟨3, [2, 1, 0]⟩, ⟨3, [0, 1, 2]⟩]).plans.size = 6 := by
    rw [threeSwitchesRule, SymmetryGroup.ofTask_threeSwitches]
    decide +kernel
  have hr : threeSwitchesRule.Computed := fun g hg => ⟨{}, (Option.some.inj hg).symm⟩
  obtain ⟨-, -, -, -, hknown, -⟩ := ofOffers_spec threeSwitchesRule hr [⟨3, [2, 1, 0]⟩, ⟨3, [0, 1, 2]⟩]
    (by decide +kernel) (by decide)
  refine ⟨hsize, hknown (fun n hn => ?_) ⟨3, [0, 1, 2]⟩ (by decide)⟩
  rw [hsize]
  obtain rfl : 8 = n := Option.some.inj hn
  decide

end Selection

end RankedPlans
