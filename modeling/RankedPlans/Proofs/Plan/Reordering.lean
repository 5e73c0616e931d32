import Mathlib.Algebra.BigOperators.Group.List.Basic
import Mathlib.Algebra.Ring.Int.Defs
import RankedPlans.Plan.Reordering
import RankedPlans.Proofs.Task.Execution

/-! A plan costs what its operators cost, in whatever order. So the reorderings of a plan, which are
applicable orders of its operators that end in a goal, are plans of the same cost. Without limits the walk
comes to all of them, in lexicographic order, and with limits to the first ones. -/

namespace RankedPlans

variable {t : Task} {s s' : State} {op : Nat} {plan order : Plan} {cost : Int}

namespace Task

theorem run?_lt (h : t.run? s plan = some (s', cost)) : ∀ op ∈ plan, op < t.operators.size := by
  induction plan generalizing s cost with
  | nil => simp
  | cons op plan ih =>
    obtain ⟨hop, left, hrun, -⟩ := run?_cons_eq_some_iff.mp h
    intro other hother
    rcases List.mem_cons.mp hother with rfl | hother
    · exact (mem_applicable_iff.mp hop).1
    · exact ih hrun other hother

theorem run?_cost_eq_sum (h : t.run? s plan = some (s', cost)) :
    cost = (plan.map fun op => (t.operator op).cost).sum := by
  induction plan generalizing s cost with
  | nil =>
    obtain ⟨-, rfl⟩ := Prod.mk.inj (Option.some.inj h)
    rfl
  | cons op plan ih =>
    obtain ⟨-, left, hrun, rfl⟩ := run?_cons_eq_some_iff.mp h
    rw [List.map_cons, List.sum_cons, ih hrun]

/-- Plans of the same operators cost the same. -/
theorem planCost?_eq_of_perm {cost' : Int} (h : t.planCost? plan = some cost)
    (h' : t.planCost? order = some cost') (hperm : order.Perm plan) : cost' = cost := by
  obtain ⟨_, hrun, -⟩ := planCost?_eq_some_iff.mp h
  obtain ⟨_, hrun', -⟩ := planCost?_eq_some_iff.mp h'
  rw [run?_cost_eq_sum hrun, run?_cost_eq_sum hrun']
  exact (hperm.map _).sum_eq

end Task

namespace Remaining

/-- The operators that are still to come, as often as they do. -/
def toList (r : Remaining) : List Nat :=
  r.flatMap fun (op, n) => List.replicate n op

/-- Every operator of the list is still to come. -/
def Positive (r : Remaining) : Prop :=
  ∀ x ∈ r, 0 < x.2

variable {r : Remaining}

theorem toList_cons (n : Nat) (r : Remaining) :
    toList ((op, n) :: r) = List.replicate n op ++ toList r := rfl

theorem toList_add (op : Nat) (r : Remaining) : toList (add op r) = op :: toList r := by
  cases r with
  | nil => rfl
  | cons x r =>
    obtain ⟨other, n⟩ := x
    rw [add]
    split
    · rename_i heq
      rw [toList_cons, toList_cons, heq, List.replicate_succ, List.cons_append]
    · rw [toList_cons, List.replicate_one, List.singleton_append]

theorem Positive.add (h : r.Positive) (op : Nat) : (r.add op).Positive := by
  cases r with
  | nil => simp [Remaining.add, Positive]
  | cons x r =>
    obtain ⟨other, n⟩ := x
    obtain ⟨hn, hr⟩ := List.forall_mem_cons.mp h
    rw [Remaining.add]
    split
    · exact List.forall_mem_cons.mpr ⟨Nat.succ_pos n, hr⟩
    · exact List.forall_mem_cons.mpr ⟨Nat.one_pos, h⟩

theorem foldr_add_spec (ops : List Nat) : Positive (ops.foldr add []) ∧ toList (ops.foldr add []) = ops := by
  induction ops with
  | nil => exact ⟨List.forall_mem_nil _, rfl⟩
  | cons op ops ih => exact ⟨ih.1.add op, by rw [List.foldr_cons, toList_add, ih.2]⟩

theorem ofPlan_spec (plan : Plan) : (ofPlan plan).Positive ∧ (ofPlan plan).toList.Perm plan := by
  obtain ⟨hpos, hlist⟩ := foldr_add_spec (sortBy (fun a b => a ≤ b) plan)
  refine ⟨hpos, ?_⟩
  rw [ofPlan, hlist]
  exact sortBy_perm _ plan

/-- One operator less is still to come. -/
theorem take_spec (h : r.Positive) (hop : op ∈ r.map Prod.fst) :
    (r.take op).Positive ∧ r.toList.Perm (op :: (r.take op).toList) := by
  induction r with
  | nil => cases hop
  | cons x r ih =>
    obtain ⟨other, n⟩ := x
    obtain ⟨hn, hr⟩ := List.forall_mem_cons.mp h
    rw [take]
    by_cases heq : op = other
    · subst heq
      rw [if_pos rfl]
      by_cases hone : n ≤ 1
      · obtain rfl : n = 1 := Nat.le_antisymm hone hn
        rw [if_pos hone]
        exact ⟨hr, .refl _⟩
      · rw [if_neg hone]
        refine ⟨List.forall_mem_cons.mpr ⟨by simp only; omega, hr⟩, ?_⟩
        rw [toList_cons, toList_cons, ← List.cons_append, ← List.replicate_succ,
          Nat.sub_add_cancel hn]
    · rw [if_neg heq]
      have hmem : op ∈ r.map Prod.fst := (List.mem_cons.mp hop).resolve_left heq
      obtain ⟨hpos, hperm⟩ := ih hr hmem
      refine ⟨List.forall_mem_cons.mpr ⟨hn, hpos⟩, ?_⟩
      rw [toList_cons, toList_cons]
      exact (hperm.append_left _).trans List.perm_middle

theorem mem_toList_of_mem (h : r.Positive) (hop : op ∈ r.map Prod.fst) : op ∈ r.toList :=
  (take_spec h hop).2.mem_iff.mpr List.mem_cons_self

theorem exists_mem_of_mem_toList (hop : op ∈ r.toList) : op ∈ r.map Prod.fst := by
  obtain ⟨⟨other, n⟩, hmem, hop⟩ := List.mem_flatMap.mp hop
  obtain rfl := List.eq_of_mem_replicate hop
  exact List.mem_map_of_mem hmem

/-- The operators are listed in ascending order and none of them twice. -/
def Ascending (r : Remaining) : Prop :=
  (r.map Prod.fst).Pairwise (· < ·)

theorem Ascending.add (h : r.Ascending) (hle : ∀ other ∈ r.map Prod.fst, op ≤ other) :
    (r.add op).Ascending := by
  cases r with
  | nil => simp [Remaining.add, Ascending]
  | cons x r =>
    obtain ⟨other, n⟩ := x
    rw [Remaining.add]
    split
    · rename_i heq
      rwa [Ascending, List.map_cons, heq]
    · refine List.pairwise_cons.mpr ⟨fun k hk => ?_, h⟩
      have hother := hle other List.mem_cons_self
      rcases List.mem_cons.mp hk with rfl | hk
      · exact Nat.lt_of_le_of_ne hother ‹_›
      · exact Nat.lt_of_le_of_lt hother ((List.pairwise_cons.mp h).1 k hk)

theorem ofPlan_ascending (plan : Plan) : (ofPlan plan).Ascending := by
  have hfold : ∀ ops : List Nat, ops.Pairwise (· ≤ ·) → Ascending (ops.foldr add []) := by
    intro ops
    induction ops with
    | nil => exact fun _ => List.Pairwise.nil
    | cons op ops ih =>
      intro hops
      obtain ⟨hle, hops⟩ := List.pairwise_cons.mp hops
      obtain ⟨hpos, hlist⟩ := foldr_add_spec ops
      exact (ih hops).add fun other hother => hle other (hlist ▸ mem_toList_of_mem hpos hother)
  refine hfold _ ((sortBy_pairwise ?_ ?_ plan).imp of_decide_eq_true)
  · intro a b c hab hbc
    simp only [decide_eq_true_eq] at hab hbc ⊢
    omega
  · intro a b
    simp only [decide_eq_true_eq]
    omega

theorem Ascending.take (h : r.Ascending) (op : Nat) : (r.take op).Ascending := by
  have hsub : ((r.take op).map Prod.fst).Sublist (r.map Prod.fst) := by
    clear h
    induction r with
    | nil => exact .slnil
    | cons x r ih =>
      obtain ⟨other, n⟩ := x
      rw [Remaining.take]
      split
      · rename_i heq
        split
        · exact .cons _ (.refl _)
        · rw [List.map_cons, List.map_cons, heq]
      · exact .cons_cons _ ih
  exact h.sublist hsub

end Remaining

namespace Task

/-- The orders of what is still to come that are applicable and end in a goal, as the walk comes to them. -/
def orderings (t : Task) : Nat → Remaining → State → List Plan
  | 0, _, s => if t.isGoal s then [[]] else []
  | left + 1, remaining, s => remaining.flatMap fun (op, _) =>
    if (t.operator op).applicable s then
      (t.orderings left (remaining.take op) (t.apply s op)).map (op :: ·)
    else []

/-- The walk comes to the orders in lexicographic order. -/
theorem orderings_pairwise {left : Nat} {remaining : Remaining} (h : remaining.Ascending) :
    (t.orderings left remaining s).Pairwise (List.Lex (· < ·)) := by
  induction left generalizing remaining s with
  | zero =>
    rw [orderings]
    split
    · exact List.pairwise_singleton _ _
    · exact List.Pairwise.nil
  | succ left ih =>
    rw [orderings, List.pairwise_flatMap]
    constructor
    · rintro ⟨op, n⟩ -
      simp only
      split
      · exact List.pairwise_map.mpr ((ih (h.take op)).imp List.Lex.cons)
      · exact List.Pairwise.nil
    · refine (List.pairwise_map.mp h).imp ?_
      rintro ⟨op, n⟩ ⟨op', n'⟩ hlt order horder order' horder'
      simp only at horder horder'
      split at horder
      · obtain ⟨rest, -, rfl⟩ := List.mem_map.mp horder
        split at horder'
        · obtain ⟨rest', -, rfl⟩ := List.mem_map.mp horder'
          exact List.Lex.rel hlt
        · cases horder'
      · cases horder

/-- All orders come up that are applicable and end in a goal. -/
theorem mem_orderings_iff {left : Nat} {remaining : Remaining} (hpos : remaining.Positive)
    (hlt : ∀ op ∈ remaining.toList, op < t.operators.size) (hleft : remaining.toList.length = left) :
    order ∈ t.orderings left remaining s ↔ order.Perm remaining.toList ∧
      ∃ final cost, t.run? s order = some (final, cost) ∧ t.isGoal final = true := by
  induction left generalizing remaining s order with
  | zero =>
    rw [List.length_eq_zero_iff.mp hleft, List.perm_nil, orderings]
    constructor
    · intro h
      split at h
      · obtain rfl := List.mem_singleton.mp h
        exact ⟨rfl, s, 0, rfl, ‹_›⟩
      · cases h
    · rintro ⟨rfl, final, cost, hrun, hgoal⟩
      obtain ⟨rfl, -⟩ := Prod.mk.inj (Option.some.inj hrun)
      rw [if_pos hgoal]
      exact List.mem_singleton.mpr rfl
  | succ left ih =>
    have next : ∀ {op}, op ∈ remaining.map Prod.fst → ∀ {rest : Plan},
        rest ∈ t.orderings left (remaining.take op) (t.apply s op) ↔
          (op :: rest).Perm remaining.toList ∧
          ∃ final cost, t.run? (t.apply s op) rest = some (final, cost) ∧ t.isGoal final = true := by
      intro op hop rest
      obtain ⟨hpos', hperm⟩ := Remaining.take_spec hpos hop
      have hlength := hperm.length_eq
      rw [List.length_cons] at hlength
      rw [ih hpos' (fun other hother => hlt other (hperm.mem_iff.mpr (List.mem_cons_of_mem _ hother)))
        (by omega)]
      exact and_congr_left fun _ => ⟨fun h => (h.cons op).trans hperm.symm,
        fun h => (List.perm_cons op).mp (h.trans hperm)⟩
    rw [orderings, List.mem_flatMap]
    constructor
    · rintro ⟨⟨op, n⟩, hmem, h⟩
      have hop : op ∈ remaining.map Prod.fst := List.mem_map_of_mem hmem
      simp only at h
      split at h
      · obtain ⟨rest, hrest, rfl⟩ := List.mem_map.mp h
        obtain ⟨hperm, final, cost, hrun, hgoal⟩ := (next hop).mp hrest
        have happ := mem_applicable_iff.mpr ⟨hlt op (Remaining.mem_toList_of_mem hpos hop), ‹_›⟩
        exact ⟨hperm, final, _, run?_cons_eq_some_iff.mpr ⟨happ, cost, hrun, rfl⟩, hgoal⟩
      · cases h
    · rintro ⟨hperm, final, cost, hrun, hgoal⟩
      cases order with
      | nil =>
        have := hperm.length_eq
        rw [hleft] at this
        cases this
      | cons op rest =>
        obtain ⟨happ, left', hrun, -⟩ := run?_cons_eq_some_iff.mp hrun
        have hop := Remaining.exists_mem_of_mem_toList (hperm.mem_iff.mp List.mem_cons_self)
        obtain ⟨⟨op', n⟩, hmem, rfl⟩ := List.mem_map.mp hop
        have happ := (mem_applicable_iff.mp happ).2
        refine ⟨_, hmem, ?_⟩
        simp only at happ ⊢
        rw [if_pos happ]
        exact List.mem_map_of_mem ((next hop).mpr ⟨hperm, final, left', hrun, hgoal⟩)

/-- The orders other than the plan that continue a beginning, given from its end. -/
def completions (t : Task) (plan : Plan) (left : Nat) (remaining : Remaining) (beginning : List Nat)
    (s : State) : List Plan :=
  ((t.orderings left remaining s).map (beginning.reverse ++ ·)).filter (· != plan)

theorem completions_zero (t : Task) (plan : Plan) (remaining : Remaining) (beginning : List Nat)
    (s : State) : t.completions plan 0 remaining beginning s =
      if t.isGoal s && beginning.reverse != plan then [beginning.reverse] else [] := by
  rw [completions, orderings]
  cases t.isGoal s
  · rfl
  · by_cases h : beginning.reverse = plan <;> simp [h]

theorem completions_succ (t : Task) (plan : Plan) (left : Nat) (remaining : Remaining)
    (beginning : List Nat) (s : State) : t.completions plan (left + 1) remaining beginning s =
      remaining.flatMap fun (op, _) =>
        if (t.operator op).applicable s then
          t.completions plan left (remaining.take op) (op :: beginning) (t.apply s op)
        else [] := by
  rw [completions, orderings, List.map_flatMap, List.filter_flatMap]
  refine List.flatMap_congr fun ⟨op, n⟩ _ => ?_
  simp only
  split
  · simp only [completions, List.map_map, List.reverse_cons, List.append_assoc, List.singleton_append]
    rfl
  · rfl

end Task

namespace ReorderingWalk

variable {limits : ReorderingLimits} {w : ReorderingWalk} {orders : List Plan}

/-- What a walk has found when it has come past some orders: the first of them, and unless it has been stopped
all of them. A limit has stopped it. -/
structure Listed (limits : ReorderingLimits) (orders : List Plan) (w : ReorderingWalk) : Prop where
  found : w.found.toList <+: orders
  all : w.stopped = false → w.found.toList = orders
  size_le : ∀ k, limits.count = some k → w.found.size ≤ k
  size_lt : w.stopped = false → ∀ k, limits.count = some k → w.found.size < k
  reason : w.stopped = true → limits.nodes ≤ w.visited ∨ limits.count = some w.found.size

/-- A walk that has been stopped comes past everything else without a look. -/
theorem Listed.append (h : w.Listed limits orders) (hstop : w.stopped = true) (more : List Plan) :
    w.Listed limits (orders ++ more) :=
  { h with
    found := h.found.trans (List.prefix_append orders more)
    all := fun hgo => absurd hstop (by rw [hgo]; exact Bool.false_ne_true) }

theorem Listed.finish (h : w.Listed limits orders) (hgo : w.stopped = false) :
    (w.finish t plan limits order s).Listed limits
      (orders ++ if t.isGoal s && order != plan then [order] else []) := by
  have hall := h.all hgo
  -- what is found for a goal other than the plan is one order more
  obtain ⟨found, hfound, hlist, hsize⟩ : ∃ found,
      w.finish t plan limits order s = { w with found, stopped := limits.count.any (· ≤ found.size) } ∧
      found.toList = orders ++ (if t.isGoal s && order != plan then [order] else []) ∧
      found.size ≤ w.found.size + 1 := by
    refine ⟨_, rfl, ?_, ?_⟩
    · split <;> simp [hall]
    · split <;> simp
  rw [hfound]
  have hle : ∀ k, limits.count = some k → found.size ≤ k := fun k hk => by
    have := h.size_lt hgo k hk
    omega
  refine ⟨hlist ▸ List.prefix_rfl, fun _ => hlist, hle, fun hgo' k hk => ?_, fun hstop => .inr ?_⟩
  · simpa [hk] using hgo'
  · cases hk : limits.count with
    | none => simp [hk] at hstop
    | some k => exact congrArg some (Nat.le_antisymm (by simpa [hk] using hstop) (hle k hk))

/-- A visit is made unless the walk has been stopped or has no visits left. -/
theorem Listed.guard (h : w.Listed limits orders) (visit : ReorderingWalk → ReorderingWalk) {more : List Plan}
    (hvisit : ∀ w : ReorderingWalk, w.stopped = false → w.Listed limits orders →
      (visit w).Listed limits (orders ++ more)) :
    Listed limits (orders ++ more) (if w.stopped then w
      else if limits.nodes ≤ w.visited then { w with stopped := true }
      else visit { w with visited := w.visited + 1 }) := by
  by_cases hstop : w.stopped = true
  · rw [if_pos hstop]
    exact h.append hstop more
  · have hgo := Bool.eq_false_iff.mpr hstop
    rw [if_neg hstop]
    by_cases hnodes : limits.nodes ≤ w.visited
    · have hstopped : Listed limits orders { w with stopped := true } :=
        ⟨h.found, nofun, h.size_le, nofun, fun _ => .inl hnodes⟩
      rw [if_pos hnodes]
      exact hstopped.append rfl more
    · rw [if_neg hnodes]
      exact hvisit _ hgo ⟨h.found, h.all, h.size_le, h.size_lt, fun hstop' => absurd hstop' hstop⟩

theorem Listed.foldl {step : ReorderingWalk → Nat × Nat → ReorderingWalk} {more : Nat × Nat → List Plan}
    (hstep : ∀ x orders w, Listed limits orders w → (step w x).Listed limits (orders ++ more x))
    (h : w.Listed limits orders) (remaining : Remaining) :
    (remaining.foldl step w).Listed limits (orders ++ remaining.flatMap more) := by
  induction remaining generalizing w orders with
  | nil => rwa [List.flatMap_nil, List.append_nil]
  | cons x remaining ih =>
    rw [List.foldl_cons, List.flatMap_cons, ← List.append_assoc]
    exact ih (hstep x orders w h)

/-- From a beginning the walk comes past all orders that continue it. -/
theorem Listed.extend {left : Nat} {remaining : Remaining} {beginning : List Nat}
    (h : w.Listed limits orders) :
    (extend t plan limits left remaining beginning s w).Listed limits
      (orders ++ t.completions plan left remaining beginning s) := by
  induction left generalizing remaining beginning s w orders with
  | zero =>
    rw [ReorderingWalk.extend, Task.completions_zero]
    exact h.guard (ReorderingWalk.finish t plan limits beginning.reverse s) fun w hgo h => h.finish hgo
  | succ left ih =>
    rw [ReorderingWalk.extend, Task.completions_succ]
    refine h.guard (fun w => remaining.foldl (fun w (op, _) =>
      if (t.operator op).applicable s then
        ReorderingWalk.extend t plan limits left (remaining.take op) (op :: beginning) (t.apply s op) w
      else w) w) fun w _ h => h.foldl (fun ⟨op, n⟩ orders w h => ?_) remaining
    simp only
    split
    · exact ih h
    · rwa [List.append_nil]

end ReorderingWalk

/-- As many of some orders as are wanted. -/
def ReorderingLimits.cut (limits : ReorderingLimits) (orders : List Plan) : List Plan :=
  match limits.count with
  | none => orders
  | some k => orders.take k

namespace Task

variable {limits : ReorderingLimits}

/-- The walk that finds the reorderings. It visits nothing where none are wanted or no two operators could be
exchanged. -/
def reorderingWalk (t : Task) (limits : ReorderingLimits) (plan : Plan) : ReorderingWalk :=
  if limits.count = some 0 ∨ plan.length < 2 then {}
  else .extend t plan limits plan.length (.ofPlan plan) [] t.initial {}

/-- The reorderings of a plan without limits. -/
def allReorderings (t : Task) (plan : Plan) : List Plan :=
  t.completions plan plan.length (.ofPlan plan) [] t.initial

theorem allReorderings_eq (t : Task) (plan : Plan) : t.allReorderings plan =
    (t.orderings plan.length (.ofPlan plan) t.initial).filter (· != plan) := by
  rw [allReorderings, completions]
  exact congrArg _ (List.map_id _)

theorem allReorderings_pairwise (t : Task) (plan : Plan) :
    (t.allReorderings plan).Pairwise (List.Lex (· < ·)) := by
  rw [allReorderings_eq]
  exact (orderings_pairwise (Remaining.ofPlan_ascending plan)).filter _

theorem mem_allReorderings_iff (hplan : ∀ op ∈ plan, op < t.operators.size) :
    order ∈ t.allReorderings plan ↔ order ≠ plan ∧ order.Perm plan ∧
      ∃ final cost, t.run? t.initial order = some (final, cost) ∧ t.isGoal final = true := by
  obtain ⟨hpos, hperm⟩ := Remaining.ofPlan_spec plan
  rw [allReorderings_eq, List.mem_filter, bne_iff_ne, and_comm,
    mem_orderings_iff hpos (fun op hop => hplan op (hperm.mem_iff.mp hop)) hperm.length_eq]
  exact and_congr_right fun _ => and_congr_left fun _ =>
    ⟨fun h => h.trans hperm, fun h => h.trans hperm.symm⟩

theorem reorderings_eq_found (t : Task) (limits : ReorderingLimits) (plan : Plan) :
    t.reorderings limits plan = (t.reorderingWalk limits plan).found.toList := by
  rw [reorderings, reorderingWalk]
  split <;> rfl

theorem reorderingWalk_listed (hwalk : ¬(limits.count = some 0 ∨ plan.length < 2)) :
    (t.reorderingWalk limits plan).Listed limits (t.allReorderings plan) := by
  have hstart : ReorderingWalk.Listed limits [] {} := by
    refine ⟨List.prefix_rfl, fun _ => rfl, fun _ _ => Nat.zero_le _, fun _ k hk => Nat.pos_of_ne_zero ?_, nofun⟩
    rintro rfl
    exact hwalk (.inl hk)
  rw [reorderingWalk, if_neg hwalk]
  exact hstart.extend

theorem allReorderings_eq_nil (hplan : ∀ op ∈ plan, op < t.operators.size) (hlength : plan.length < 2) :
    t.allReorderings plan = [] := by
  refine List.eq_nil_iff_forall_not_mem.mpr fun order horder => ?_
  obtain ⟨hne, hperm, -⟩ := (mem_allReorderings_iff hplan).mp horder
  cases plan with
  | nil => exact hne hperm.eq_nil
  | cons op rest =>
    obtain rfl : rest = [] := List.eq_nil_of_length_eq_zero (by rw [List.length_cons] at hlength; omega)
    exact hne (List.perm_singleton.mp hperm)

/-- What is found is the first of all reorderings. -/
theorem reorderings_first (t : Task) (limits : ReorderingLimits) (plan : Plan) :
    t.reorderings limits plan <+: t.allReorderings plan := by
  by_cases hwalk : limits.count = some 0 ∨ plan.length < 2
  · rw [reorderings, if_pos hwalk]
    exact List.nil_prefix
  · rw [reorderings_eq_found]
    exact (reorderingWalk_listed hwalk).found

/-- The reorderings of a plan are plans of its cost. -/
theorem reorderings_spec (hplan : t.planCost? plan = some cost) :
    ∀ order ∈ t.reorderings limits plan, t.planCost? order = some cost := by
  intro order horder
  obtain ⟨_, hvalid, -⟩ := planCost?_eq_some_iff.mp hplan
  obtain ⟨-, hperm, final, spent, hrun, hgoal⟩ :=
    (mem_allReorderings_iff (run?_lt hvalid)).mp ((reorderings_first t limits plan).subset horder)
  have hspent := planCost?_eq_some_iff.mpr ⟨final, hrun, hgoal⟩
  rw [hspent, planCost?_eq_of_perm hplan hspent hperm]

theorem length_reorderings_le (t : Task) (limits : ReorderingLimits) (plan : Plan) {k : Nat}
    (hk : limits.count = some k) : (t.reorderings limits plan).length ≤ k := by
  by_cases hwalk : limits.count = some 0 ∨ plan.length < 2
  · rw [reorderings, if_pos hwalk]
    exact Nat.zero_le k
  · rw [reorderings_eq_found]
    exact (reorderingWalk_listed hwalk).size_le k hk

/-- With visits to spare, all reorderings are found that are wanted. -/
theorem reorderings_eq_cut (hplan : ∀ op ∈ plan, op < t.operators.size)
    (hnodes : (t.reorderingWalk limits plan).visited < limits.nodes) :
    t.reorderings limits plan = limits.cut (t.allReorderings plan) := by
  by_cases hwalk : limits.count = some 0 ∨ plan.length < 2
  · rw [reorderings, if_pos hwalk]
    rcases hwalk with hzero | hlength
    · rw [ReorderingLimits.cut, hzero]
      exact List.take_zero.symm
    · rw [allReorderings_eq_nil hplan hlength, ReorderingLimits.cut]
      split <;> simp
  · have hlisted : (t.reorderingWalk limits plan).Listed limits (t.allReorderings plan) :=
      reorderingWalk_listed hwalk
    rw [reorderings_eq_found, ReorderingLimits.cut]
    cases hstop : (t.reorderingWalk limits plan).stopped with
    | false =>
      have hall := hlisted.all hstop
      split
      · exact hall
      · rename_i k hk
        have := hlisted.size_lt hstop k hk
        rw [← hall, List.take_of_length_le (by rw [Array.length_toList]; omega)]
    | true =>
      have hk := (hlisted.reason hstop).resolve_left (by omega)
      rw [hk]
      simpa using List.prefix_iff_eq_take.mp hlisted.found

/-- The reorderings that are found are the first ones, in lexicographic order, of the other orders of the
operators that are applicable and end in a goal; they are no more than are wanted, and no fewer unless the
visits have been used up. Each of them comes up once and costs what the operators cost. -/
theorem reorderings_exact {t : Task} {plan : Plan} (hplan : ∀ op ∈ plan, op < t.operators.size)
    (limits : ReorderingLimits) :
    ∃ all : List Plan, all.Pairwise (List.Lex (· < ·)) ∧
      (∀ order, order ∈ all ↔ order ≠ plan ∧ order.Perm plan ∧
        ∃ final cost, t.run? t.initial order = some (final, cost) ∧ t.isGoal final = true) ∧
      t.reorderings limits plan <+: all ∧
      (∀ k, limits.count = some k → (t.reorderings limits plan).length ≤ k) ∧
      ((t.reorderingWalk limits plan).visited < limits.nodes →
        t.reorderings limits plan = limits.cut all) ∧
      (t.reorderings limits plan).Nodup ∧
      ∀ order ∈ t.reorderings limits plan,
        t.planCost? order = some (plan.map fun op => (t.operator op).cost).sum := by
  have hfirst := reorderings_first t limits plan
  have hpairwise := allReorderings_pairwise t plan
  refine ⟨t.allReorderings plan, hpairwise, fun order => mem_allReorderings_iff hplan, hfirst,
    fun k => length_reorderings_le t limits plan, reorderings_eq_cut hplan, ?_, fun order horder => ?_⟩
  · refine (hpairwise.sublist hfirst.sublist).imp fun {a b} hlt => ?_
    rintro rfl
    exact List.lex_irrefl Nat.lt_irrefl _ hlt
  · obtain ⟨-, hperm, final, cost, hrun, hgoal⟩ :=
      (mem_allReorderings_iff hplan).mp (hfirst.subset horder)
    rw [planCost?_eq_some_iff.mpr ⟨final, hrun, hgoal⟩, run?_cost_eq_sum hrun, (hperm.map _).sum_eq]

/-- Two switches that may be flipped again, and a lamp that needs both. -/
def lampOfTwo : Task where
  vars := #[⟨"a", ["off", "on"]⟩, ⟨"b", ["off", "on"]⟩, ⟨"lamp", ["dark", "lit"]⟩]
  operators := #[⟨"flip a", 1, [], [⟨0, 1⟩]⟩, ⟨"flip b", 1, [], [⟨1, 1⟩]⟩,
    ⟨"light", 2, [⟨0, 1⟩, ⟨1, 1⟩], [⟨2, 1⟩]⟩]
  initial := #[0, 0, 0]
  goal := [⟨2, 1⟩]
  normalized := by decide +kernel
  faultless := by decide +kernel

theorem reorderings_exact_lampOfTwo : (∀ op ∈ [0, 0, 1, 2], op < lampOfTwo.operators.size) ∧
    lampOfTwo.reorderings ⟨1000, some 3⟩ [0, 0, 1, 2] = [[0, 1, 0, 2], [0, 1, 2, 0], [1, 0, 0, 2]] ∧
    (lampOfTwo.reorderingWalk ⟨1000, some 3⟩ [0, 0, 1, 2]).visited < 1000 ∧
    ∀ order ∈ lampOfTwo.reorderings ⟨1000, some 3⟩ [0, 0, 1, 2], lampOfTwo.planCost? order = some 5 := by
  have hplan : ∀ op ∈ [0, 0, 1, 2], op < lampOfTwo.operators.size := by decide
  obtain ⟨-, -, -, -, -, -, -, hcost⟩ := reorderings_exact hplan ⟨1000, some 3⟩
  exact ⟨hplan, by decide +kernel, by decide +kernel, hcost⟩

end Task

end RankedPlans
