import RankedPlans.Proofs.Symmetry.Group
import RankedPlans.Symmetry.PlanOrbit

/-! Under symmetries that keep the initial state the images of a plan are plans of the same cost, and the key
of a plan is the key of one of them. -/

namespace RankedPlans

variable {t : Task} {plan : Plan} {cost : Int}

namespace Generator.Symmetry

variable {g : Generator} {fixInitial : Bool} {s s' : State}

theorem run?_mapPlan (h : Symmetry t fixInitial g) (hs : t.IsState s)
    (hrun : t.run? s plan = some (s', cost)) :
    t.run? (g.mapState s) (g.mapPlan plan) = some (g.mapState s', cost) ∧ t.IsState s' := by
  induction plan generalizing s cost with
  | nil =>
    obtain ⟨rfl, rfl⟩ := Prod.mk.inj (Option.some.inj hrun)
    exact ⟨rfl, hs⟩
  | cons op plan ih =>
    obtain ⟨hop, left, hleft, rfl⟩ := Task.run?_cons_eq_some_iff.mp hrun
    have hlt := (Task.mem_applicable_iff.mp hop).1
    obtain ⟨hrest, hs'⟩ := ih (hs.apply op) hleft
    refine ⟨Task.run?_cons_eq_some_iff.mpr ⟨(h.mem_applicable_mapState hs hlt).mpr hop, left, ?_, ?_⟩, hs'⟩
    · rw [h.apply_mapState hs hlt]
      exact hrest
    · rw [h.cost_eq hlt]

/-- The image of a plan is a plan of the same cost. -/
theorem planCost?_mapPlan (h : Symmetry t true g) (hplan : t.planCost? plan = some cost) :
    t.planCost? (g.mapPlan plan) = some cost := by
  obtain ⟨final, hrun, hgoal⟩ := Task.planCost?_eq_some_iff.mp hplan
  obtain ⟨hrun', hfinal⟩ := h.run?_mapPlan t.isState_initial hrun
  rw [h.mapState_initial rfl] at hrun'
  exact Task.planCost?_eq_some_iff.mpr ⟨_, hrun', (h.isGoal_mapState hfinal).mpr hgoal⟩

end Generator.Symmetry

namespace SymmetryGroup

variable {g : SymmetryGroup} {s s' : State} {trace : List Nat}

/-- A trace takes a run to one that costs the same. -/
theorem exists_run?_mapState (hg : g.Sound t) (hv : g.Valid trace) (hs : t.IsState s)
    (hrun : t.run? s plan = some (s', cost)) :
    ∃ image, t.run? (g.mapState trace s) image = some (g.mapState trace s', cost) := by
  induction trace generalizing s s' plan with
  | nil => exact ⟨plan, hrun⟩
  | cons i trace ih =>
    obtain ⟨hi, hv⟩ := List.forall_mem_cons.mp hv
    exact ih hv ((hg i hi).isState_mapState hs) ((hg i hi).run?_mapPlan hs hrun).1

end SymmetryGroup

namespace OrbitWalk

variable {encode : Plan → List Nat} {limit : Nat} {p : Plan → Prop} {w : OrbitWalk}

/-- The plans met have a property, and each is met with its key. -/
def Keeps (encode : Plan → List Nat) (p : Plan → Prop) (w : OrbitWalk) : Prop :=
  ∀ x ∈ w.met, p x.1 ∧ x.2 = encode x.1

theorem start_keeps (h : p plan) : (start encode plan).Keeps encode p := by
  intro x hx
  obtain rfl : x = (plan, encode plan) := by simpa [start] using hx
  exact ⟨h, rfl⟩

theorem Keeps.meet {g : Generator} (h : w.Keeps encode p) (hg : ∀ plan, p plan → p (g.mapPlan plan))
    (hplan : p plan) : (meet encode limit plan w g).Keeps encode p := by
  unfold OrbitWalk.meet
  split
  · exact h
  · simp only
    split
    · exact h
    · intro x hx
      rcases Array.mem_push.mp hx with hx | rfl
      · exact h x hx
      · exact ⟨hg plan hplan, rfl⟩

theorem Keeps.run {generators : List Generator}
    (hg : ∀ g ∈ generators, ∀ plan, p plan → p (g.mapPlan plan)) (fuel i : Nat)
    (h : w.Keeps encode p) : (run encode limit generators fuel i w).Keeps encode p := by
  induction fuel generalizing i w with
  | zero => exact h
  | succ fuel ih =>
    unfold OrbitWalk.run
    split
    · exact h
    · rename_i plan key hget
      split
      · exact h
      · have hplan := (h _ (Array.mem_of_getElem? hget)).1
        exact ih (i + 1) (List.foldlRecOn generators _ h fun w hw g hmem => hw.meet (hg g hmem) hplan)

end OrbitWalk

namespace SymmetryGroup

variable {g : SymmetryGroup} {encode : Plan → List Nat}

/-- All images of a plan are plans of its cost, as long as it is, and come with their keys. -/
theorem images_spec (hg : g.Sound t) (hfix : g.fixesInitial = true)
    (hplan : t.planCost? plan = some cost) : ∀ x ∈ g.images encode plan,
      (t.planCost? x.1 = some cost ∧ x.1.length = plan.length) ∧ x.2 = encode x.1 := by
  intro x hx
  simp only [images] at hx
  split at hx
  · cases hx
  · have hgen : ∀ gen ∈ g.generators.toList.filter (·.movesOperators), ∀ other,
        t.planCost? other = some cost ∧ other.length = plan.length →
        t.planCost? (gen.mapPlan other) = some cost ∧ (gen.mapPlan other).length = plan.length := by
      rintro gen hmem other ⟨hother, hlength⟩
      obtain ⟨i, hi⟩ := List.mem_iff_getElem?.mp (List.mem_filter.mp hmem).1
      rw [Array.getElem?_toList] at hi
      have hsound := hg i (Array.getElem?_eq_some_iff.mp hi).1
      rw [generator, Array.getD_eq_getD_getElem?, hi, hfix] at hsound
      exact ⟨hsound.planCost?_mapPlan hother, (List.length_map ..).trans hlength⟩
    exact OrbitWalk.Keeps.run hgen _ _ (OrbitWalk.start_keeps ⟨hplan, rfl⟩) x
      (Array.mem_toList_iff.mp (List.mem_of_mem_drop hx))

/-- The key of a plan is that of one of its images. -/
theorem planKey_spec (hg : g.Sound t) (hfix : g.fixesInitial = true)
    (hplan : t.planCost? plan = some cost) : ∃ image, t.planCost? image = some cost ∧
      image.length = plan.length ∧ g.planKey encode plan = encode image := by
  refine List.foldlRecOn (motive := fun best => ∃ image, t.planCost? image = some cost ∧
    image.length = plan.length ∧ best = encode image) _ _ ⟨plan, hplan, rfl, rfl⟩ ?_
  rintro best hbest ⟨image, key⟩ hmem
  obtain ⟨⟨himage, hlength⟩, hkey⟩ := images_spec hg hfix hplan _ hmem
  simp only
  split
  · exact ⟨image, himage, hlength, hkey⟩
  · exact hbest

theorem symmetricPlans_spec (hg : g.Sound t) (hplan : t.planCost? plan = some cost)
    {limit : Option Nat} : ∀ image ∈ g.symmetricPlans plan limit, t.planCost? image = some cost := by
  intro image himage
  unfold symmetricPlans at himage
  split at himage
  · rename_i hfix
    have hfix : g.fixesInitial = true := by simp_all
    have hmem : image ∈ (g.images id plan).map Prod.fst := by
      cases limit with
      | none => exact himage
      | some n => exact List.mem_of_mem_take himage
    obtain ⟨x, hx, rfl⟩ := List.mem_map.mp hmem
    exact (images_spec hg hfix hplan x hx).1.1
  · cases himage

end SymmetryGroup

end RankedPlans
