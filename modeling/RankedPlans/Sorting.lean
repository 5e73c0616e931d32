/-!
Stable merge sort by a Boolean order. The sorted list is a permutation of the given one, and
elements that the order does not separate stay in their first order. All recursion is structural, so
the sorted form of a closed list is found by evaluation.
-/

namespace RankedPlans

variable {α : Type}

/-- Puts an element before the first one that it precedes or ties with, and changes the list from
there on by `next`. -/
def insertThen (le : α → α → Bool) (a : α) (next : List α → List α) : List α → List α
  | [] => a :: next []
  | b :: rest => if le a b then a :: next (b :: rest) else b :: insertThen le a next rest

/-- The elements of two ascending lists in ascending order. An element of the first list stands
before those of the second list that it ties with. -/
def mergeBy (le : α → α → Bool) : List α → List α → List α
  | [], ys => ys
  | a :: rest, [] => a :: rest
  | a :: rest, b :: ys => insertThen le a (mergeBy le rest) (b :: ys)

/-- Puts an element before some ascending lists: at the front of the first one if that stays ascending. -/
def addFront (le : α → α → Bool) (a : α) : List (List α) → List (List α)
  | (b :: run) :: later => if le a b then (a :: b :: run) :: later else [a] :: (b :: run) :: later
  | later => [a] :: later

/-- Ascending lists that are merged from one, two, four and so on of the first ones; some are left out. -/
abbrev Runs (α : Type) := List (Option (List α))

namespace Runs

/-- All elements, run by run. -/
def contents (runs : Runs α) : List α :=
  runs.flatMap (·.getD [])

/-- Adds one run, which is merged with the runs that are as old as itself. -/
def push (le : α → α → Bool) (run : List α) : Runs α → Runs α
  | [] => [some run]
  | none :: rest => some run :: rest
  | some other :: rest => none :: push le (mergeBy le run other) rest

/-- One run of all elements. -/
def merged (le : α → α → Bool) (runs : Runs α) : List α :=
  runs.foldr (fun run all => mergeBy le (run.getD []) all) []

end Runs

/-- The elements in ascending order of `le`. -/
def sortBy (le : α → α → Bool) (xs : List α) : List α :=
  ((xs.foldr (addFront le) []).foldr (Runs.push le) []).merged le

section Perm

variable (le : α → α → Bool)

theorem insertThen_perm (a : α) {next : List α → List α} {xs : List α}
    (h : ∀ ys, (next ys).Perm (xs ++ ys)) (ys : List α) :
    (insertThen le a next ys).Perm (a :: (xs ++ ys)) := by
  induction ys with
  | nil => exact (h []).cons a
  | cons b rest ih =>
    unfold insertThen
    split
    · exact (h (b :: rest)).cons a
    · exact (ih.cons b).trans <| (List.Perm.swap a b _).trans (List.perm_middle.symm.cons a)

theorem mergeBy_nil (xs : List α) : mergeBy le xs [] = xs := by
  cases xs <;> rfl

theorem mergeBy_perm (xs ys : List α) : (mergeBy le xs ys).Perm (xs ++ ys) := by
  induction xs generalizing ys with
  | nil => exact List.Perm.refl _
  | cons a rest ih =>
    cases ys with
    | nil => simp [mergeBy]
    | cons b ys => exact insertThen_perm le a ih (b :: ys)

theorem flatten_addFront (a : α) (lists : List (List α)) :
    (addFront le a lists).flatten = a :: lists.flatten := by
  unfold addFront
  split
  · split <;> rfl
  · rfl

theorem flatten_foldr_addFront (xs : List α) : (xs.foldr (addFront le) []).flatten = xs := by
  induction xs with
  | nil => rfl
  | cons a rest ih => rw [List.foldr_cons, flatten_addFront, ih]

theorem Runs.contents_push_perm (run : List α) (runs : Runs α) :
    (push le run runs).contents.Perm (run ++ runs.contents) := by
  induction runs generalizing run with
  | nil => exact List.Perm.refl _
  | cons head rest ih =>
    cases head with
    | none => exact List.Perm.refl _
    | some other =>
      refine (ih _).trans ?_
      exact ((mergeBy_perm le run other).append_right _).trans (by simp [contents])

theorem Runs.merged_perm (runs : Runs α) : (runs.merged le).Perm runs.contents := by
  induction runs with
  | nil => exact List.Perm.refl _
  | cons head rest ih => exact (mergeBy_perm le _ _).trans (ih.append_left _)

theorem Runs.contents_foldr_perm (lists : List (List α)) :
    (lists.foldr (push le) []).contents.Perm lists.flatten := by
  induction lists with
  | nil => exact List.Perm.refl _
  | cons run rest ih => exact (contents_push_perm le run _).trans (ih.append_left run)

theorem sortBy_perm (xs : List α) : (sortBy le xs).Perm xs := by
  refine ((Runs.merged_perm le _).trans (Runs.contents_foldr_perm le _)).trans ?_
  rw [flatten_foldr_addFront]

end Perm

section Ascending

variable {le : α → α → Bool}

theorem insertThen_pairwise (trans : ∀ a b c, le a b = true → le b c = true → le a c = true)
    (total : ∀ a b, le a b = true ∨ le b a = true) {a : α} {next : List α → List α} {xs : List α}
    (perm : ∀ ys, (next ys).Perm (xs ++ ys)) (ha : ∀ x ∈ xs, le a x = true)
    (asc : ∀ ys, (ys.Pairwise fun b c => le b c = true) → (next ys).Pairwise fun b c => le b c = true)
    {ys : List α} (h : ys.Pairwise fun b c => le b c = true) :
    (insertThen le a next ys).Pairwise fun b c => le b c = true := by
  induction ys with
  | nil =>
    refine List.pairwise_cons.2 ⟨fun x hx => ha x ?_, asc [] h⟩
    simpa using (perm []).mem_iff.1 hx
  | cons b rest ih =>
    have hb := List.pairwise_cons.1 h
    unfold insertThen
    split
    · rename_i hab
      refine List.pairwise_cons.2 ⟨fun x hx => ?_, asc _ h⟩
      rcases List.mem_append.1 ((perm _).mem_iff.1 hx) with hx | hx
      · exact ha x hx
      · rcases List.mem_cons.1 hx with rfl | hx
        · exact hab
        · exact trans a b x hab (hb.1 x hx)
    · rename_i hab
      have hba := (total b a).resolve_right hab
      refine List.pairwise_cons.2 ⟨fun x hx => ?_, ih hb.2⟩
      rcases List.mem_cons.1 ((insertThen_perm le a perm rest).mem_iff.1 hx) with rfl | hx
      · exact hba
      · rcases List.mem_append.1 hx with hx | hx
        · exact trans b a x hba (ha x hx)
        · exact hb.1 x hx

theorem mergeBy_pairwise (trans : ∀ a b c, le a b = true → le b c = true → le a c = true)
    (total : ∀ a b, le a b = true ∨ le b a = true) {xs ys : List α}
    (hx : xs.Pairwise fun b c => le b c = true) (hy : ys.Pairwise fun b c => le b c = true) :
    (mergeBy le xs ys).Pairwise fun b c => le b c = true := by
  induction xs generalizing ys with
  | nil => exact hy
  | cons a rest ih =>
    have ha := List.pairwise_cons.1 hx
    cases ys with
    | nil => exact hx
    | cons b ys =>
      exact insertThen_pairwise trans total (mergeBy_perm le rest) ha.1 (fun _ => ih ha.2) hy

theorem Runs.push_pairwise (trans : ∀ a b c, le a b = true → le b c = true → le a c = true)
    (total : ∀ a b, le a b = true ∨ le b a = true) {run : List α} {runs : Runs α}
    (hr : run.Pairwise fun b c => le b c = true)
    (h : ∀ r ∈ runs, (r.getD []).Pairwise fun b c => le b c = true) :
    ∀ r ∈ push le run runs, (r.getD []).Pairwise fun b c => le b c = true := by
  induction runs generalizing run with
  | nil => simpa [push] using hr
  | cons head rest ih =>
    rw [List.forall_mem_cons] at h
    cases head with
    | none => exact List.forall_mem_cons.2 ⟨hr, h.2⟩
    | some other =>
      exact List.forall_mem_cons.2 ⟨List.Pairwise.nil, ih (mergeBy_pairwise trans total hr h.1) h.2⟩

theorem addFront_pairwise (trans : ∀ a b c, le a b = true → le b c = true → le a c = true) (a : α)
    {lists : List (List α)} (h : ∀ run ∈ lists, run.Pairwise fun b c => le b c = true) :
    ∀ run ∈ addFront le a lists, run.Pairwise fun b c => le b c = true := by
  unfold addFront
  split
  · rename_i b run later
    rw [List.forall_mem_cons] at h
    split
    · rename_i hab
      refine List.forall_mem_cons.2 ⟨List.pairwise_cons.2 ⟨fun c hc => ?_, h.1⟩, h.2⟩
      rcases List.mem_cons.1 hc with rfl | hc
      · exact hab
      · exact trans a b c hab ((List.pairwise_cons.1 h.1).1 c hc)
    · exact List.forall_mem_cons.2 ⟨List.pairwise_singleton _ _, List.forall_mem_cons.2 h⟩
  · exact List.forall_mem_cons.2 ⟨List.pairwise_singleton _ _, h⟩

/-- A total transitive order leaves the sorted list ascending. -/
theorem sortBy_pairwise (trans : ∀ a b c, le a b = true → le b c = true → le a c = true)
    (total : ∀ a b, le a b = true ∨ le b a = true) (xs : List α) :
    (sortBy le xs).Pairwise fun b c => le b c = true := by
  have lists : ∀ run ∈ xs.foldr (addFront le) [], run.Pairwise fun b c => le b c = true := by
    induction xs with
    | nil => simp
    | cons a rest ih => exact addFront_pairwise trans a ih
  unfold sortBy
  generalize xs.foldr (addFront le) [] = all at lists
  have runs : ∀ r ∈ all.foldr (Runs.push le) [], (r.getD []).Pairwise fun b c => le b c = true := by
    induction all with
    | nil => simp
    | cons run rest ih =>
      rw [List.forall_mem_cons] at lists
      exact Runs.push_pairwise trans total lists.1 (ih lists.2)
  generalize all.foldr (Runs.push le) [] = counter at runs
  induction counter with
  | nil => exact List.Pairwise.nil
  | cons head rest ih =>
    rw [List.forall_mem_cons] at runs
    exact mergeBy_pairwise trans total runs.1 (ih runs.2)

theorem foldr_addFront_eq_singleton {a : α} {xs : List α}
    (h : (a :: xs).Pairwise fun b c => le b c = true) :
    (a :: xs).foldr (addFront le) [] = [a :: xs] := by
  induction xs generalizing a with
  | nil => rfl
  | cons b rest ih =>
    have hb := List.pairwise_cons.1 h
    rw [List.foldr_cons, ih hb.2]
    simp [addFront, hb.1 b]

/-- An ascending list is its own sorted form. -/
theorem sortBy_eq_self {xs : List α} (h : xs.Pairwise fun a b => le a b = true) :
    sortBy le xs = xs := by
  cases xs with
  | nil => rfl
  | cons a xs =>
    rw [sortBy, foldr_addFront_eq_singleton h]
    exact mergeBy_nil le _

/-- An order that tells all elements apart leaves one sorted form only. -/
theorem sortBy_eq_of_perm (trans : ∀ a b c, le a b = true → le b c = true → le a c = true)
    (total : ∀ a b, le a b = true ∨ le b a = true)
    (antisymm : ∀ a b, le a b = true → le b a = true → a = b) {xs ys : List α} (h : xs.Perm ys) :
    sortBy le xs = sortBy le ys :=
  List.Perm.eq_of_pairwise (fun a b _ _ => antisymm a b) (sortBy_pairwise trans total xs)
    (sortBy_pairwise trans total ys) ((sortBy_perm le xs).trans (h.trans (sortBy_perm le ys).symm))

end Ascending

end RankedPlans
