import Mathlib.Algebra.GroupWithZero.Nat
import Mathlib.Algebra.Order.BigOperators.Group.List
import Mathlib.Algebra.Order.Group.Nat
import Mathlib.Logic.Function.Iterate
import RankedPlans.Heuristic.Choice
import RankedPlans.Proofs.Cost
import RankedPlans.Proofs.Heuristic.Consistent
import RankedPlans.Proofs.Task.ValueOffsets

/-! The costs that `hmax` settles on are the greatest ones that no operator can lower and that do not exceed
the costs it starts from. So a bound on them need only be supported by the operators: the costs from a state
exceed those from its successor by no more than the cost of the operator between them, and the estimate
along a way to a goal by no more than the way costs. -/

namespace RankedPlans.Heuristic.Max

variable {t : Task} {s : State} {o : Operator} {offsets costs before : Array Nat} {facts : List Fact}
  {i b fuel : Nat}

/-- No cost is beyond the mark of facts that are not reached. -/
def Bounded (costs : Array Nat) : Prop :=
  ∀ i, costs.getD i unreached ≤ unreached

/-- No place has a higher cost than before. -/
structure Below (costs before : Array Nat) : Prop where
  size_eq : costs.size = before.size
  le : ∀ i, costs.getD i unreached ≤ before.getD i unreached

/-- No operator leads to a fact for less than the function says, which is given by the places of the facts. -/
def Supported (t : Task) (lower : Nat → Nat) : Prop :=
  ∀ o ∈ t.operators, ∀ f ∈ o.effects, ∀ b,
    (∀ p ∈ o.preconditions, lower (slot t.valueOffsets p) ≤ b) →
      lower (slot t.valueOffsets f) ≤ b + o.cost.toNat

namespace Below

theorem refl (costs : Array Nat) : Below costs costs :=
  ⟨rfl, fun _ => Nat.le_refl _⟩

theorem trans {last : Array Nat} (h : Below last costs) (h' : Below costs before) : Below last before :=
  ⟨h.size_eq.trans h'.size_eq, fun i => Nat.le_trans (h.le i) (h'.le i)⟩

theorem bounded (h : Below costs before) (hb : Bounded before) : Bounded costs :=
  fun i => Nat.le_trans (h.le i) (hb i)

theorem getElem_le (h : Below costs before) (hi : i < costs.size) (hi' : i < before.size) :
    costs[i] ≤ before[i] := by
  have := h.le i
  simpa [hi, hi'] using this

theorem antisymm (h : Below costs before) (h' : Below before costs) : costs = before :=
  Array.ext h.size_eq fun _ hi hi' => Nat.le_antisymm (h.getElem_le hi hi') (h'.getElem_le hi' hi)

/-- Where a cost is lower, so is the sum of all. -/
theorem sum_lt (h : Below costs before) (hne : costs ≠ before) : costs.toList.sum < before.toList.sum := by
  have hlists : ∀ xs ys : List Nat, List.Forall₂ (· ≤ ·) xs ys → xs ≠ ys → xs.sum < ys.sum := by
    intro xs ys hle
    induction hle with
    | nil => exact fun hne => absurd rfl hne
    | @cons x y xs ys hxy hle ih =>
      intro hne
      have hsum := hle.sum_le_sum
      rw [List.sum_cons, List.sum_cons]
      by_cases hxy' : x = y
      · have := ih fun heq => hne (hxy' ▸ heq ▸ rfl)
        omega
      · omega
  refine hlists _ _ (List.forall₂_iff_get.mpr ⟨by simp [h.size_eq], fun i hi hi' => ?_⟩)
    fun heq => hne (Array.toList_inj.mp heq)
  simpa using h.getElem_le (by simpa using hi) (by simpa using hi')

end Below

theorem costliest_le_iff : costliest offsets costs facts ≤ b ↔
    ∀ f ∈ facts, costs.getD (slot offsets f) unreached ≤ b := by
  have fold : ∀ c, facts.foldl (fun c f => Max.max c (costs.getD (slot offsets f) unreached)) c ≤ b ↔
      c ≤ b ∧ ∀ f ∈ facts, costs.getD (slot offsets f) unreached ≤ b := by
    induction facts with
    | nil => simp
    | cons f facts ih =>
      intro c
      rw [List.foldl_cons, ih, List.forall_mem_cons, Nat.max_le, and_assoc]
  rw [costliest, fold]
  exact and_iff_right (Nat.zero_le b)

section Relax

theorem size_foldl_modify (reach : Nat) (facts : List Fact) (costs : Array Nat) :
    (facts.foldl (fun costs f => costs.modify (slot offsets f) (min reach)) costs).size = costs.size := by
  induction facts generalizing costs with
  | nil => rfl
  | cons f facts ih => rw [List.foldl_cons, ih, Array.size_modify]

theorem getD_foldl_modify (reach : Nat) (facts : List Fact) (hi : i < costs.size) :
    (facts.foldl (fun costs f => costs.modify (slot offsets f) (min reach)) costs).getD i unreached =
      if i ∈ facts.map (slot offsets) then min reach (costs.getD i unreached)
      else costs.getD i unreached := by
  induction facts generalizing costs with
  | nil => simp
  | cons f facts ih =>
    have hmodify : (costs.modify (slot offsets f) (min reach)).getD i unreached =
        if i = slot offsets f then min reach (costs.getD i unreached) else costs.getD i unreached := by
      rw [Array.getD_eq_getD_getElem?, Array.getElem?_modify, Array.getD_eq_getD_getElem?,
        Array.getElem?_eq_getElem hi]
      simp only [eq_comm (a := i)]
      split <;> rfl
    rw [List.foldl_cons, ih (by rwa [Array.size_modify]), hmodify]
    simp only [List.map_cons, List.mem_cons]
    by_cases hf : i = slot offsets f <;> simp [hf]

@[simp] theorem size_relax (offsets costs : Array Nat) (o : Operator) :
    (relax offsets costs o).size = costs.size := by
  simp only [relax]
  split
  · rfl
  · exact size_foldl_modify _ _ _

/-- An effect costs at most what leads to it; sums that exceed the mark lower nothing. -/
theorem getD_relax (offsets : Array Nat) (o : Operator) (hb : Bounded costs) (hi : i < costs.size) :
    (relax offsets costs o).getD i unreached =
      if i ∈ o.effects.map (slot offsets) then
        min (costliest offsets costs o.preconditions + o.cost.toNat) (costs.getD i unreached)
      else costs.getD i unreached := by
  have hle := hb i
  simp only [relax]
  by_cases hneeded : costliest offsets costs o.preconditions = unreached
  · rw [if_pos hneeded, Nat.min_eq_right (by omega), ite_self]
  · rw [if_neg hneeded, getD_foldl_modify _ _ hi]
    generalize costs.getD i unreached = c at hle
    by_cases hmem : i ∈ o.effects.map (slot offsets)
    · rw [if_pos hmem, if_pos hmem]
      omega
    · rw [if_neg hmem, if_neg hmem]

theorem getD_relax_of_size_le (hi : costs.size ≤ i) :
    (relax offsets costs o).getD i unreached = costs.getD i unreached := by
  rw [Array.getD_eq_getD_getElem?, Array.getD_eq_getD_getElem?, Array.getElem?_eq_none hi,
    Array.getElem?_eq_none (by rwa [size_relax])]

theorem relax_below (offsets : Array Nat) (o : Operator) (hb : Bounded costs) : Below (relax offsets costs o) costs := by
  refine ⟨size_relax _ _ _, fun i => ?_⟩
  rcases Nat.lt_or_ge i costs.size with hi | hi
  · rw [getD_relax _ _ hb hi]
    by_cases hmem : i ∈ o.effects.map (slot offsets)
    · rw [if_pos hmem]
      exact Nat.min_le_right _ _
    · rw [if_neg hmem]
  · exact Nat.le_of_eq (getD_relax_of_size_le hi)

/-- What the operators support is not undercut by them. -/
theorem le_relax {lower : Nat → Nat} (hlower : Supported t lower) (ho : o ∈ t.operators)
    (hb : Bounded costs) (hle : ∀ i, lower i ≤ costs.getD i unreached) (i : Nat) :
    lower i ≤ (relax t.valueOffsets costs o).getD i unreached := by
  rcases Nat.lt_or_ge i costs.size with hi | hi
  · rw [getD_relax _ _ hb hi]
    by_cases hmem : i ∈ o.effects.map (slot t.valueOffsets)
    · rw [if_pos hmem]
      obtain ⟨f, hf, rfl⟩ := List.mem_map.mp hmem
      have hneeded := costliest_le_iff.mp (Nat.le_refl (costliest t.valueOffsets costs o.preconditions))
      exact Nat.le_min.mpr ⟨hlower o ho f hf _ fun p hp => Nat.le_trans (hle _) (hneeded p hp), hle _⟩
    · rw [if_neg hmem]
      exact hle i
  · rw [getD_relax_of_size_le hi]
    exact hle i

end Relax

section Round

theorem foldl_relax_below (offsets : Array Nat) (operators : List Operator) (hb : Bounded costs) :
    Below (operators.foldl (relax offsets) costs) costs := by
  induction operators generalizing costs with
  | nil => exact .refl costs
  | cons o operators ih =>
    have hrelax := relax_below offsets o hb
    exact (ih (hrelax.bounded hb)).trans hrelax

theorem round_below (t : Task) (offsets : Array Nat) (hb : Bounded costs) : Below (round t offsets costs) costs := by
  rw [round, ← Array.foldl_toList]
  exact foldl_relax_below _ _ hb

theorem le_round {lower : Nat → Nat} (hlower : Supported t lower) (hb : Bounded costs)
    (hle : ∀ i, lower i ≤ costs.getD i unreached) (i : Nat) :
    lower i ≤ (round t t.valueOffsets costs).getD i unreached := by
  have hfold : ∀ operators : List Operator, (∀ o ∈ operators, o ∈ t.operators) → ∀ costs, Bounded costs →
      (∀ i, lower i ≤ costs.getD i unreached) →
      ∀ i, lower i ≤ (operators.foldl (relax t.valueOffsets) costs).getD i unreached := by
    intro operators
    induction operators with
    | nil => exact fun _ _ _ hle => hle
    | cons o operators ih =>
      intro hmem costs hb hle
      obtain ⟨ho, hmem⟩ := List.forall_mem_cons.mp hmem
      exact ih hmem _ ((relax_below _ o hb).bounded hb) (le_relax hlower ho hb hle)
  rw [round, ← Array.foldl_toList]
  exact hfold _ (fun o ho => Array.mem_toList_iff.mp ho) costs hb hle i

/-- Costs that no round changes are not changed by any operator. -/
theorem relax_eq_of_round_eq (hb : Bounded costs) (h : round t offsets costs = costs)
    (ho : o ∈ t.operators) : relax offsets costs o = costs := by
  have hfold : ∀ operators : List Operator, operators.foldl (relax offsets) costs = costs →
      ∀ o ∈ operators, relax offsets costs o = costs := by
    intro operators
    induction operators with
    | nil => exact fun _ => List.forall_mem_nil _
    | cons o operators ih =>
      intro heq
      have hrelax := relax_below offsets o hb
      have hback := foldl_relax_below offsets operators (hrelax.bounded hb)
      rw [← List.foldl_cons, heq] at hback
      have ho := hrelax.antisymm hback
      rw [List.foldl_cons, ho] at heq
      exact List.forall_mem_cons.mpr ⟨ho, ih heq⟩
  rw [round, ← Array.foldl_toList] at h
  exact hfold _ h o (Array.mem_toList_iff.mpr ho)

/-- Costs that no round changes are supported by the operators. -/
theorem supported_of_round_eq (hb : Bounded costs) (hsize : costs.size = t.valueOffsets.back?.getD 0)
    (h : round t t.valueOffsets costs = costs) : Supported t fun i => costs.getD i unreached := by
  intro o ho f hf b hpre
  obtain ⟨op, hop, rfl⟩ := Array.mem_iff_getElem.mp ho
  have hfact := (t.operator_facts op).2.1 f (Task.operator_eq hop ▸ hf)
  have hlt : slot t.valueOffsets f < costs.size := hsize ▸ hfact.number_lt
  have hrelax := getD_relax t.valueOffsets t.operators[op] hb hlt
  rw [relax_eq_of_round_eq hb h ho, if_pos (List.mem_map_of_mem hf)] at hrelax
  calc costs.getD (slot t.valueOffsets f) unreached
    _ ≤ costliest t.valueOffsets costs t.operators[op].preconditions + t.operators[op].cost.toNat :=
      hrelax ▸ Nat.min_le_left _ _
    _ ≤ b + t.operators[op].cost.toNat := Nat.add_le_add_right (costliest_le_iff.mpr hpre) _

end Round

section Settle

theorem settle_below (hb : Bounded costs) : Below (settle t offsets fuel costs) costs := by
  induction fuel generalizing costs with
  | zero => exact .refl costs
  | succ fuel ih =>
    have hround := round_below t offsets hb
    rw [settle]
    split
    · exact .refl costs
    · exact (ih (hround.bounded hb)).trans hround

theorem le_settle {lower : Nat → Nat} (hlower : Supported t lower) (hb : Bounded costs)
    (hle : ∀ i, lower i ≤ costs.getD i unreached) (i : Nat) :
    lower i ≤ (settle t t.valueOffsets fuel costs).getD i unreached := by
  induction fuel generalizing costs with
  | zero => exact hle i
  | succ fuel ih =>
    rw [settle]
    split
    · exact hle i
    · exact ih ((round_below t _ hb).bounded hb) (le_round hlower hb hle)

theorem exists_settle_eq_iterate (t : Task) (offsets : Array Nat) (fuel : Nat) (costs : Array Nat) :
    ∃ rounds, settle t offsets fuel costs = (round t offsets)^[rounds] costs := by
  induction fuel generalizing costs with
  | zero => exact ⟨0, rfl⟩
  | succ fuel ih =>
    rw [settle]
    split
    · exact ⟨0, rfl⟩
    · obtain ⟨rounds, h⟩ := ih (round t offsets costs)
      exact ⟨rounds + 1, h⟩

/-- Every round but the last lowers the sum of the costs. -/
theorem round_settle (hb : Bounded costs) (hfuel : costs.toList.sum < fuel) :
    round t offsets (settle t offsets fuel costs) = settle t offsets fuel costs := by
  induction fuel generalizing costs with
  | zero => omega
  | succ fuel ih =>
    have hround := round_below t offsets hb
    rw [settle]
    split
    · assumption
    · rename_i hne
      have := hround.sum_lt hne
      exact ih (hround.bounded hb) (by omega)

end Settle

section Initial

variable {f : Fact}

theorem mem_places_iff : i ∈ s.toList.zipIdx.map (fun p => slot offsets ⟨p.2, p.1⟩) ↔
    ∃ f : Fact, f.holds s = true ∧ slot offsets f = i := by
  simp only [List.mem_map, Prod.exists, List.mk_mem_zipIdx_iff_getElem?, Array.getElem?_toList, Fact.holds_iff]
  constructor
  · rintro ⟨value, var, hs, rfl⟩
    exact ⟨⟨var, value⟩, hs, rfl⟩
  · rintro ⟨⟨var, value⟩, hs, rfl⟩
    exact ⟨value, var, hs, rfl⟩

theorem getElem?_initialCosts (offsets : Array Nat) (s : State) (i : Nat) :
    (initialCosts offsets s)[i]? = if i ∈ s.toList.zipIdx.map (fun p => slot offsets ⟨p.2, p.1⟩) then
      (Array.replicate (offsets.back?.getD 0) unreached)[i]?.map fun _ => 0
      else (Array.replicate (offsets.back?.getD 0) unreached)[i]? :=
  getElem?_foldl_setIfInBounds_const (fun p : Nat × Nat => slot offsets ⟨p.2, p.1⟩) 0 s.toList.zipIdx _ i

/-- Only facts of the state cost anything less than those that are not reached. -/
theorem getD_initialCosts_cases (offsets : Array Nat) (s : State) (i : Nat) :
    (initialCosts offsets s).getD i unreached = unreached ∨
      ∃ f : Fact, f.holds s = true ∧ slot offsets f = i := by
  rw [Array.getD_eq_getD_getElem?, getElem?_initialCosts]
  by_cases hmem : i ∈ s.toList.zipIdx.map fun p => slot offsets ⟨p.2, p.1⟩
  · exact .inr (mem_places_iff.mp hmem)
  · rw [if_neg hmem, Array.getElem?_replicate]
    left
    split <;> rfl

theorem getD_initialCosts_of_holds (hs : t.IsState s) (hf : f.holds s = true) :
    (initialCosts t.valueOffsets s).getD (slot t.valueOffsets f) unreached = 0 := by
  have hlt : slot t.valueOffsets f < t.valueOffsets.back?.getD 0 := (hs.isFact hf).number_lt
  rw [Array.getD_eq_getD_getElem?, getElem?_initialCosts, if_pos (mem_places_iff.mpr ⟨f, hf, rfl⟩),
    Array.getElem?_replicate, if_pos hlt]
  rfl

theorem size_initialCosts (offsets : Array Nat) (s : State) :
    (initialCosts offsets s).size = offsets.back?.getD 0 :=
  (size_foldl_setIfInBounds (fun p : Nat × Nat => slot offsets ⟨p.2, p.1⟩) (fun _ => 0) _ _).trans
    Array.size_replicate

theorem initialCosts_bounded (offsets : Array Nat) (s : State) : Bounded (initialCosts offsets s) := by
  intro i
  rw [Array.getD_eq_getD_getElem?, getElem?_initialCosts, Array.getElem?_replicate]
  split <;> split <;> simp

end Initial

section Settled

variable {f : Fact} {op : Nat}

theorem settledCosts_eq (t : Task) (s : State) : settledCosts t s = settle t t.valueOffsets
    (1 + (initialCosts t.valueOffsets s).toList.sum) (initialCosts t.valueOffsets s) := by
  have hsum : ∀ l : List Nat, l.foldl (· + ·) 1 = 1 + l.sum := fun l => by
    rw [List.sum_eq_foldl]
    show l.foldl (· + ·) (1 + 0) = _
    exact List.foldl_assoc
  rw [settledCosts, ← Array.foldl_toList, hsum]

theorem settledCosts_below (t : Task) (s : State) :
    Below (settledCosts t s) (initialCosts t.valueOffsets s) := by
  rw [settledCosts_eq]
  exact settle_below (initialCosts_bounded _ _)

theorem settledCosts_bounded (t : Task) (s : State) : Bounded (settledCosts t s) :=
  (settledCosts_below t s).bounded (initialCosts_bounded _ _)

/-- After the last round no further one changes a cost. -/
theorem round_settledCosts (t : Task) (s : State) :
    round t t.valueOffsets (settledCosts t s) = settledCosts t s := by
  rw [settledCosts_eq]
  exact round_settle (initialCosts_bounded _ _) (by omega)

theorem supported_settledCosts (t : Task) (s : State) :
    Supported t fun i => (settledCosts t s).getD i unreached :=
  supported_of_round_eq (settledCosts_bounded t s)
    ((settledCosts_below t s).size_eq.trans (size_initialCosts _ _)) (round_settledCosts t s)

/-- The settled costs are the greatest ones that the operators support. -/
theorem le_settledCosts {lower : Nat → Nat} (hlower : Supported t lower)
    (hle : ∀ i, lower i ≤ (initialCosts t.valueOffsets s).getD i unreached) (i : Nat) :
    lower i ≤ (settledCosts t s).getD i unreached := by
  rw [settledCosts_eq]
  exact le_settle hlower (initialCosts_bounded _ _) hle i

theorem getD_settledCosts_of_holds (hs : t.IsState s) (hf : f.holds s = true) :
    (settledCosts t s).getD (slot t.valueOffsets f) unreached = 0 := by
  have hle := (settledCosts_below t s).le (slot t.valueOffsets f)
  rw [getD_initialCosts_of_holds hs hf] at hle
  exact Nat.eq_zero_of_le_zero hle

/-- What is reached after an operator is reached before it for the cost of the operator more. -/
theorem settledCosts_le_add (hs : t.IsState s) (hop : op ∈ t.applicable s) (i : Nat) :
    (settledCosts t s).getD i unreached ≤
      (t.operator op).cost.toNat + (settledCosts t (t.apply s op)).getD i unreached := by
  obtain ⟨hlt, happ⟩ := Task.mem_applicable_iff.mp hop
  have hmem : t.operator op ∈ t.operators := Task.operator_eq hlt ▸ Array.getElem_mem hlt
  have hsupported := supported_settledCosts t s
  -- less the cost of the operator, the costs before it are supported, and its effects start at nothing
  have hlower : Supported t fun i =>
      (settledCosts t s).getD i unreached - (t.operator op).cost.toNat := by
    intro o ho f hf b hpre
    have := hsupported o ho f hf (b + (t.operator op).cost.toNat) fun p hp => by
      have := hpre p hp
      simp only at this ⊢
      omega
    simp only at this ⊢
    omega
  have hstart : ∀ i, (settledCosts t s).getD i unreached - (t.operator op).cost.toNat ≤
      (initialCosts t.valueOffsets (t.apply s op)).getD i unreached := by
    intro i
    rcases getD_initialCosts_cases t.valueOffsets (t.apply s op) i with htop | ⟨f, hf, rfl⟩
    · have := settledCosts_bounded t s i
      omega
    · have hcost : (settledCosts t s).getD (slot t.valueOffsets f) unreached ≤
          (t.operator op).cost.toNat := by
        rcases (Task.holds_apply_iff hs ((hs.apply op).isFact hf)).mp hf with heff | ⟨-, hold⟩
        · have := hsupported _ hmem f heff 0 fun p hp =>
            Nat.le_of_eq (getD_settledCosts_of_holds hs (Operator.applicable_iff.mp happ p hp))
          simpa using this
        · rw [getD_settledCosts_of_holds hs hold]
          exact Nat.zero_le _
      omega
  have := le_settledCosts hlower hstart i
  omega

/-- The cost of the costliest fact of the goal. -/
def goalCost (t : Task) (s : State) : Nat :=
  costliest t.valueOffsets (settledCosts t s) t.goal

theorem goalCost_le_unreached (t : Task) (s : State) : goalCost t s ≤ unreached :=
  costliest_le_iff.mpr fun _ _ => settledCosts_bounded t s _

theorem goalCost_of_isGoal (hs : t.IsState s) (hgoal : t.isGoal s = true) : goalCost t s = 0 :=
  Nat.eq_zero_of_le_zero <| costliest_le_iff.mpr fun f hf =>
    Nat.le_of_eq (getD_settledCosts_of_holds hs (Task.isGoal_iff.mp hgoal f hf))

theorem goalCost_le_add (hs : t.IsState s) (hop : op ∈ t.applicable s) :
    goalCost t s ≤ (t.operator op).cost.toNat + goalCost t (t.apply s op) := by
  refine costliest_le_iff.mpr fun f hf => Nat.le_trans (settledCosts_le_add hs hop _) ?_
  exact Nat.add_le_add_left (costliest_le_iff.mp (Nat.le_refl _) f hf) _

/-- No way to a goal costs less than its costliest fact. -/
theorem goalCost_le_cost {plan : Plan} {final : State} {cost : Int} (hs : t.IsState s)
    (hrun : t.run? s plan = some (final, cost)) (hgoal : t.isGoal final = true) :
    goalCost t s ≤ cost.toNat := by
  induction plan generalizing s cost with
  | nil =>
    obtain ⟨rfl, rfl⟩ := Prod.mk.inj (Option.some.inj hrun)
    exact Nat.le_of_eq (goalCost_of_isGoal hs hgoal)
  | cons op plan ih =>
    obtain ⟨hop, left, hleft, rfl⟩ := Task.run?_cons_eq_some_iff.mp hrun
    have hle := goalCost_le_add hs hop
    have hih := ih (hs.apply op) hleft
    have hcost := t.operator_cost_nonneg op
    have hnonneg := Task.run?_cost_nonneg hleft
    omega

end Settled

end RankedPlans.Heuristic.Max

namespace RankedPlans

/-- The number that an estimate stands for: a dead end stands for the top of the range of costs. -/
def Estimate.orTop : Estimate → Int
  | .value h => h
  | .deadEnd => Cost.top

namespace Heuristic

variable {t : Task} {s : State} {op : Nat}

theorem max_estimate_eq (t : Task) (s : State) : max.estimate t s =
    if Max.goalCost t s = Max.unreached then .deadEnd else .value (Max.goalCost t s) := rfl

theorem orTop_max (t : Task) (s : State) : (max.estimate t s).orTop = Max.goalCost t s := by
  rw [max_estimate_eq]
  split
  · rename_i h
    rw [h]
    rfl
  · rfl

theorem max_estimate_eq_value (h : (Max.goalCost t s : Int) < Cost.top) :
    max.estimate t s = .value (Max.goalCost t s) := by
  rw [max_estimate_eq, if_neg fun heq => ?_]
  rw [heq] at h
  exact absurd h (by decide)

theorem max_orTop_le_add (hs : t.IsState s) (hop : op ∈ t.applicable s) :
    (max.estimate t s).orTop ≤ Cost.add (t.operator op).cost (max.estimate t (t.apply s op)).orTop := by
  have hle := Max.goalCost_le_add hs hop
  have htop := Max.goalCost_le_unreached t s
  have hcost := t.operator_cost_nonneg op
  rw [orTop_max, orTop_max]
  simp only [Max.unreached, Cost.add, Cost.bottom, Cost.top, int64Min, int64Max] at htop ⊢
  omega

theorem blind_orTop_nonneg (t : Task) (s : State) : 0 ≤ (blind.estimate t s).orTop := by
  simp only [blind, Estimate.orTop]
  split
  · exact Int.le_refl 0
  · exact minOperatorCost_nonneg t

theorem blind_orTop_le_add (hop : op ∈ t.applicable s) (hcost : (t.operator op).cost ≤ Cost.top) :
    (blind.estimate t s).orTop ≤ Cost.add (t.operator op).cost (blind.estimate t (t.apply s op)).orTop := by
  have hnext := blind_orTop_nonneg t (t.apply s op)
  refine Int.le_trans ?_ (Cost.le_add hcost hnext)
  simp only [blind, Estimate.orTop]
  split
  · exact t.operator_cost_nonneg op
  · exact minOperatorCost_le (Task.mem_applicable_iff.mp hop).1

end Heuristic

/-- The rounds of `hmax` come to an end. Both heuristics that can be chosen say zero at a goal, never more than a
way to a goal costs, and fall along an operator by no more than its cost. -/
theorem HeuristicChoice.estimate_bounds {t : Task} {s : State} (hs : t.IsState s) :
    (∃ rounds, Heuristic.Max.settledCosts t s =
        (Heuristic.Max.round t t.valueOffsets)^[rounds] (Heuristic.Max.initialCosts t.valueOffsets s) ∧
      Heuristic.Max.round t t.valueOffsets (Heuristic.Max.settledCosts t s) =
        Heuristic.Max.settledCosts t s) ∧
    ∀ choice : HeuristicChoice,
      (∀ plan final cost, t.run? s plan = some (final, cost) → t.isGoal final = true → cost < Cost.top →
        ∃ h, choice.heuristic.estimate t s = .value h ∧ 0 ≤ h ∧ h ≤ cost) ∧
      (t.isGoal s = true → choice.heuristic.estimate t s = .value 0) ∧
      ∀ op ∈ t.applicable s, (t.operator op).cost ≤ Cost.top →
        (choice.heuristic.estimate t s).orTop ≤
          Cost.add (t.operator op).cost (choice.heuristic.estimate t (t.apply s op)).orTop := by
  refine ⟨?_, fun choice => ?_⟩
  · obtain ⟨rounds, hrounds⟩ := Heuristic.Max.exists_settle_eq_iterate t t.valueOffsets
      (1 + (Heuristic.Max.initialCosts t.valueOffsets s).toList.sum)
      (Heuristic.Max.initialCosts t.valueOffsets s)
    exact ⟨rounds, (Heuristic.Max.settledCosts_eq t s).trans hrounds, Heuristic.Max.round_settledCosts t s⟩
  · cases choice with
    | blind =>
      refine ⟨fun plan final cost hrun hgoal _ => ?_, fun hgoal => ?_, fun op => Heuristic.blind_orTop_le_add⟩
      · obtain ⟨h, hvalue, hle⟩ := Heuristic.blind_le hrun hgoal
        exact ⟨h, hvalue, Heuristic.blind_nonnegative t hs hvalue, hle⟩
      · exact congrArg Estimate.value (if_pos hgoal)
    | max =>
      refine ⟨fun plan final cost hrun hgoal hlt => ?_, fun hgoal => ?_,
        fun op hop _ => Heuristic.max_orTop_le_add hs hop⟩
      · have hle := Heuristic.Max.goalCost_le_cost hs hrun hgoal
        have hnonneg := Task.run?_cost_nonneg hrun
        exact ⟨_, Heuristic.max_estimate_eq_value (by omega), by omega, by omega⟩
      · rw [HeuristicChoice.heuristic, Heuristic.max_estimate_eq_value, Heuristic.Max.goalCost_of_isGoal hs hgoal]
        · rfl
        · rw [Heuristic.Max.goalCost_of_isGoal hs hgoal]
          decide

/-- Two facts to reach, one of them in two steps. -/
def Task.twoGoals : Task where
  vars := #[⟨"tent", ["packed", "pitched"]⟩, ⟨"fire", ["out", "lit"]⟩, ⟨"flag", ["down", "up"]⟩]
  operators := #[⟨"pitch", 2, [], [⟨0, 1⟩]⟩, ⟨"light", 3, [⟨0, 1⟩], [⟨1, 1⟩]⟩, ⟨"hoist", 1, [], [⟨2, 1⟩]⟩]
  initial := #[0, 0, 0]
  goal := [⟨1, 1⟩, ⟨2, 1⟩]
  normalized := by decide +kernel
  faultless := by decide +kernel

theorem HeuristicChoice.estimate_bounds_twoGoals : Task.twoGoals.IsState #[0, 0, 0] ∧
    Task.twoGoals.run? #[0, 0, 0] [0, 1, 2] = some (#[1, 1, 1], 6) ∧
    max.heuristic.estimate .twoGoals #[0, 0, 0] = .value 5 ∧
    blind.heuristic.estimate .twoGoals #[0, 0, 0] = .value 1 ∧
    (∃ h, max.heuristic.estimate .twoGoals #[0, 0, 0] = .value h ∧ 0 ≤ h ∧ h ≤ 6) ∧
    (max.heuristic.estimate .twoGoals #[0, 0, 0]).orTop ≤
      Cost.add 2 (max.heuristic.estimate .twoGoals (Task.twoGoals.apply #[0, 0, 0] 0)).orTop := by
  have hs : Task.twoGoals.IsState #[0, 0, 0] := Task.twoGoals.isState_initial
  have hrun : Task.twoGoals.run? #[0, 0, 0] [0, 1, 2] = some (#[1, 1, 1], 6) := by decide +kernel
  obtain ⟨hadmissible, -, hconsistent⟩ := (estimate_bounds hs).2 max
  exact ⟨hs, hrun, by decide +kernel, by decide +kernel,
    hadmissible _ _ _ hrun (by decide +kernel) (by decide), hconsistent 0 (by decide +kernel) (by decide)⟩

end RankedPlans
