import RankedPlans.Proofs.Heuristic.Max
import RankedPlans.Proofs.Task.Lookups

/-! The heuristics with every access to an array checked. The costs that `hmax` gives to facts stand in one array,
and the values of a state and the facts of operators and goal have their places in it, so on a state of the task
the checked estimate is the unchecked one. -/

namespace RankedPlans.Checked.Max

open RankedPlans.Heuristic.Max (unreached)

def slot (offsets : Array Nat) (f : Fact) : Option Nat := do
  let offset ← offsets[f.var]?
  return offset + f.value

def costliest (offsets costs : Array Nat) (facts : List Fact) : Option Nat :=
  facts.foldlM (fun c f => do
    let cost ← costs[← slot offsets f]?
    return max c cost) 0

def initialCosts (offsets : Array Nat) (s : State) : Option (Array Nat) :=
  s.toList.zipIdx.foldlM (fun costs p => do write costs (← slot offsets ⟨p.2, p.1⟩) 0)
    (Array.replicate (offsets.back?.getD 0) unreached)

/-- Makes a fact cost no more than some cost. -/
def lower (offsets : Array Nat) (reach : Nat) (costs : Array Nat) (f : Fact) : Option (Array Nat) := do
  let i ← slot offsets f
  let cost ← costs[i]?
  write costs i (min reach cost)

def relax (offsets costs : Array Nat) (o : Operator) : Option (Array Nat) := do
  let needed ← costliest offsets costs o.preconditions
  if needed = unreached then return costs
  else o.effects.foldlM (lower offsets (min unreached (needed + o.cost.toNat))) costs

def round (t : Task) (offsets costs : Array Nat) : Option (Array Nat) :=
  t.operators.toList.foldlM (relax offsets) costs

def settle (t : Task) (offsets : Array Nat) : Nat → Array Nat → Option (Array Nat)
  | 0, costs => some costs
  | fuel + 1, costs => do
    let next ← round t offsets costs
    if next = costs then return costs else settle t offsets fuel next

def estimate (t : Task) (s : State) : Option Estimate := do
  let costs ← initialCosts t.valueOffsets s
  let settled ← settle t t.valueOffsets (costs.foldl (· + ·) 1) costs
  let h ← costliest t.valueOffsets settled t.goal
  return if h = unreached then .deadEnd else .value h

variable {t : Task} {s : State} {f : Fact} {facts : List Fact} {o : Operator} {costs : Array Nat}

/-- One cost for every fact. -/
def Covers (t : Task) (costs : Array Nat) : Prop :=
  costs.size = t.valueOffsets.back?.getD 0

theorem slot_eq (hf : t.IsFact f) : slot t.valueOffsets f = some (Heuristic.Max.slot t.valueOffsets f) := by
  have hlt : f.var < t.valueOffsets.size := by
    rw [Task.valueOffsets, ← Array.foldl_toList,
      (Task.getElem?_foldl_offsets t.vars.toList #[0] (by simp)).1, Array.length_toList]
    exact Nat.lt_add_left 1 hf.lt
  simp [slot, Heuristic.Max.slot, hlt]

theorem Covers.slot_lt (hc : Covers t costs) (hf : t.IsFact f) :
    Heuristic.Max.slot t.valueOffsets f < costs.size :=
  hc ▸ hf.number_lt

theorem costliest_eq (hc : Covers t costs) (hfacts : ∀ f ∈ facts, t.IsFact f) :
    costliest t.valueOffsets costs facts = some (Heuristic.Max.costliest t.valueOffsets costs facts) := by
  refine (foldlM_eq_some (P := fun _ => True) (fun f hf c _ => ⟨?_, trivial⟩) trivial).1
  have hlt := hc.slot_lt (hfacts f hf)
  simp [slot_eq (hfacts f hf), hlt]

theorem initialCosts_eq (hs : t.IsState s) :
    initialCosts t.valueOffsets s = some (Heuristic.Max.initialCosts t.valueOffsets s) := by
  refine (foldlM_eq_some (P := Covers t) (fun p hp costs hc => ?_) Array.size_replicate).1
  have hfact := hs.isFact_of_mem_zipIdx hp
  refine ⟨?_, Array.size_setIfInBounds.trans hc⟩
  rw [slot_eq hfact]
  exact write_eq (hc.slot_lt hfact) 0

theorem lower_eq (hc : Covers t costs) (hf : t.IsFact f) (reach : Nat) :
    lower t.valueOffsets reach costs f =
      some (costs.modify (Heuristic.Max.slot t.valueOffsets f) (min reach)) := by
  have hlt := hc.slot_lt hf
  have hmodify : costs.modify (Heuristic.Max.slot t.valueOffsets f) (min reach) =
      costs.setIfInBounds (Heuristic.Max.slot t.valueOffsets f)
        (min reach costs[Heuristic.Max.slot t.valueOffsets f]) := by
    refine Array.ext (by simp) fun i hi hi' => ?_
    rw [Array.getElem_modify, Array.getElem_setIfInBounds]
    split
    · rename_i heq
      subst heq
      rfl
    · rfl
  rw [hmodify, ← write_eq hlt, lower, slot_eq hf]
  simp [hlt]

theorem relax_eq (hc : Covers t costs) (ho : o ∈ t.operators) :
    relax t.valueOffsets costs o = some (Heuristic.Max.relax t.valueOffsets costs o) := by
  rw [relax, costliest_eq hc (t.valid.preconditions o ho).isOf]
  simp only [Heuristic.Max.relax, Option.bind_eq_bind, Option.bind_some]
  split
  · rfl
  · refine (foldlM_eq_some (P := Covers t) (fun f hf costs hc => ⟨?_, ?_⟩) hc).1
    · exact lower_eq hc ((t.valid.effects o ho).isOf f hf) _
    · exact Array.size_modify.trans hc

theorem round_eq (hc : Covers t costs) :
    round t t.valueOffsets costs = some (Heuristic.Max.round t t.valueOffsets costs) ∧
      Covers t (Heuristic.Max.round t t.valueOffsets costs) := by
  rw [Heuristic.Max.round, ← Array.foldl_toList]
  refine foldlM_eq_some (P := Covers t) (f := relax t.valueOffsets) (fun o ho costs hc => ⟨?_, ?_⟩) hc
  · exact relax_eq hc (Array.mem_toList_iff.mp ho)
  · exact (Heuristic.Max.size_relax _ costs o).trans hc

theorem settle_eq (hc : Covers t costs) (fuel : Nat) :
    settle t t.valueOffsets fuel costs = some (Heuristic.Max.settle t t.valueOffsets fuel costs) ∧
      Covers t (Heuristic.Max.settle t t.valueOffsets fuel costs) := by
  induction fuel generalizing costs with
  | zero => exact ⟨rfl, hc⟩
  | succ fuel ih =>
    obtain ⟨heq, hnext⟩ := round_eq hc
    rw [settle, heq, Heuristic.Max.settle]
    simp only [Option.bind_eq_bind, Option.bind_some]
    split
    · exact ⟨rfl, hc⟩
    · exact ih hnext

/-- On a state of the task the cost of every fact is found where it is looked for. -/
theorem estimate_eq (hs : t.IsState s) : estimate t s = some (Heuristic.Max.estimate t s) := by
  have hc : Covers t (Heuristic.Max.initialCosts t.valueOffsets s) := Heuristic.Max.size_initialCosts _ s
  obtain ⟨heq, hsettled⟩ := settle_eq hc ((Heuristic.Max.initialCosts t.valueOffsets s).foldl (· + ·) 1)
  rw [estimate, initialCosts_eq hs]
  simp only [Option.bind_eq_bind, Option.bind_some, heq]
  rw [costliest_eq hsettled t.goal_facts.1]
  rfl

end RankedPlans.Checked.Max

namespace RankedPlans.Checked

def estimate : HeuristicChoice → Task → State → Option Estimate
  | .blind, t, s => do
    let goal ← isGoal t s
    return .value (if goal then 0 else t.minOperatorCost)
  | .max, t, s => Max.estimate t s

theorem estimate_eq (choice : HeuristicChoice) {t : Task} {s : State} (hs : t.IsState s) :
    estimate choice t s = some (choice.heuristic.estimate t s) := by
  cases choice with
  | blind =>
    rw [estimate, isGoal_eq hs]
    rfl
  | max => exact Max.estimate_eq hs

end RankedPlans.Checked
