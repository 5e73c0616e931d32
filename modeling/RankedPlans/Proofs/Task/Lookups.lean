import RankedPlans.Proofs.Task.State

/-! Applying operators with every access to an array checked. `Checked.applicable` and the definitions that
follow read and write where the ones they are named after do, and give nothing once a place does not exist. On
a state of the task all places exist, so they give what the unchecked ones give. -/

namespace RankedPlans.Checked

variable {α β : Type}

/-- A step that succeeds and keeps an invariant, taken for one item after the other. -/
theorem foldlM_eq_some {P : β → Prop} {f : β → α → Option β} {g : β → α → β} {l : List α}
    (hstep : ∀ a ∈ l, ∀ b, P b → f b a = some (g b a) ∧ P (g b a)) {b : β} (hb : P b) :
    l.foldlM f b = some (l.foldl g b) ∧ P (l.foldl g b) := by
  induction l generalizing b with
  | nil => exact ⟨rfl, hb⟩
  | cons a l ih =>
    obtain ⟨ha, hl⟩ := List.forall_mem_cons.mp hstep
    obtain ⟨heq, hnext⟩ := ha b hb
    rw [List.foldlM_cons, heq]
    exact ih hl hnext

/-- The array with another entry at a place that it has. -/
def write (xs : Array α) (i : Nat) (a : α) : Option (Array α) :=
  if i < xs.size then some (xs.setIfInBounds i a) else none

theorem write_eq {xs : Array α} {i : Nat} (h : i < xs.size) (a : α) :
    write xs i a = some (xs.setIfInBounds i a) :=
  if_pos h

/-- The items that pass a test. -/
def select (p : α → Option Bool) : List α → Option (List α)
  | [] => some []
  | a :: rest => do
    let passes ← p a
    let passing ← select p rest
    return if passes then a :: passing else passing

theorem select_eq {p : α → Option Bool} {q : α → Bool} {l : List α} (h : ∀ a ∈ l, p a = some (q a)) :
    select p l = some (l.filter q) := by
  induction l with
  | nil => rfl
  | cons a l ih =>
    obtain ⟨ha, hl⟩ := List.forall_mem_cons.mp h
    rw [select, ha, ih hl, List.filter_cons]
    rfl

def holds (s : State) (f : Fact) : Option Bool := do
  let value ← s[f.var]?
  return value == f.value

/-- Whether all facts hold. No fact is looked at after the first that does not. -/
def allHold (s : State) : List Fact → Option Bool
  | [] => some true
  | f :: rest => do
    if ← holds s f then allHold s rest else return false

def applicable (t : Task) (s : State) : Option (List Nat) :=
  select (fun op => do allHold s (← t.operators[op]?).preconditions) (List.range t.operators.size)

def isGoal (t : Task) (s : State) : Option Bool :=
  allHold s t.goal

def apply (t : Task) (s : State) (op : Nat) : Option State := do
  let o ← t.operators[op]?
  o.effects.foldlM (fun s f => write s f.var f.value) s

section State

variable {t : Task} {s : State} {facts : List Fact} {op : Nat}

theorem holds_eq {f : Fact} (h : f.var < s.size) : holds s f = some (f.holds s) := by
  rw [holds, Fact.holds, Array.getElem?_eq_getElem h]
  rfl

theorem allHold_eq (hs : t.IsState s) (hfacts : ∀ f ∈ facts, t.IsFact f) :
    allHold s facts = some (facts.all (·.holds s)) := by
  induction facts with
  | nil => rfl
  | cons f facts ih =>
    obtain ⟨hf, hfacts⟩ := List.forall_mem_cons.mp hfacts
    rw [allHold, holds_eq (hs.size_eq ▸ hf.lt), ih hfacts, List.all_cons]
    cases f.holds s <;> rfl

theorem getElem?_operators (hop : op < t.operators.size) : t.operators[op]? = some (t.operator op) := by
  rw [Task.operator_eq hop, Array.getElem?_eq_getElem hop]

theorem applicable_eq (hs : t.IsState s) : applicable t s = some (t.applicable s) := by
  rw [Task.applicable_eq_filter]
  refine select_eq fun op hop => ?_
  rw [getElem?_operators (List.mem_range.mp hop)]
  exact allHold_eq hs (t.operator_facts op).1

theorem isGoal_eq (hs : t.IsState s) : isGoal t s = some (t.isGoal s) :=
  allHold_eq hs t.goal_facts.1

theorem apply_eq (hs : t.IsState s) (hop : op < t.operators.size) : apply t s op = some (t.apply s op) := by
  rw [apply, getElem?_operators hop]
  refine (foldlM_eq_some (P := fun s => s.size = t.vars.size) (fun f hf s hs => ?_) hs.size_eq).1
  have hlt : f.var < s.size := hs ▸ ((t.operator_facts op).2.1 f hf).lt
  exact ⟨write_eq hlt f.value, Array.size_setIfInBounds.trans hs⟩

end State

end RankedPlans.Checked
