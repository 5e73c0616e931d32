import Mathlib.Data.List.Induction
import Mathlib.Data.List.Nodup
import Mathlib.Order.Bounds.Basic
import RankedPlans.Proofs.Search.OpenList

/-! Sequences of calls on an open list, each with a notion of its own of which entries are current. What comes out is
the first entry, by estimate and then by insertion, of those that are current for the call, and only entries
before it that are not current are lost. -/

namespace RankedPlans

namespace OpenList

variable {current : Nat → Int → Bool} {o o' : OpenList} {gone : List ((Int × Nat) × OpenEntry)}
  {x : (Int × Nat) × OpenEntry}

/-- The entries are in the queue under numbers of their own. -/
structure Numbered (o : OpenList) : Prop where
  valid : o.queue.Valid costThenNumber
  distinct : (o.entries.map (·.1.2)).Nodup
  lt : ∀ x ∈ o.entries, x.1.2 < o.inserted

/-- The first entry of those that are current. -/
structure IsFront (current : Nat → Int → Bool) (x : (Int × Nat) × OpenEntry)
    (entries : List ((Int × Nat) × OpenEntry)) : Prop where
  mem : x ∈ entries
  isCurrent : current x.2.node x.2.cost = true
  first : ∀ y ∈ entries, current y.2.node y.2.cost = true → costThenNumber x.1 y.1 = true

/-- The entries but those before a given one that are not current. -/
def behind (current : Nat → Int → Bool) (x : (Int × Nat) × OpenEntry)
    (entries : List ((Int × Nat) × OpenEntry)) : List ((Int × Nat) × OpenEntry) :=
  entries.filter fun y => current y.2.node y.2.cost || costThenNumber x.1 y.1

theorem numbered_empty : Numbered {} := ⟨PriorityQueue.valid_empty, List.nodup_nil, nofun⟩

theorem Numbered.push (h : o.Numbered) (node : Nat) (estimate cost : Int) :
    (o.push node estimate cost).Numbered where
  valid := h.valid.push costThenNumber_totalPreorder _ _
  distinct := by
    rw [((o.entries_push node estimate cost).map _).nodup_iff, List.map_cons, List.nodup_cons]
    refine ⟨fun hmem => ?_, h.distinct⟩
    obtain ⟨y, hy, heq⟩ := List.mem_map.mp hmem
    exact Nat.ne_of_lt (h.lt y hy) heq
  lt y hy := by
    rcases List.mem_cons.mp ((o.entries_push node estimate cost).mem_iff.mp hy) with rfl | hy
    · exact Nat.lt_succ_self _
    · exact Nat.lt_succ_of_lt (h.lt y hy)

/-- Entries that something tells apart stay apart, from each other and from those that were taken. -/
theorem Removes.nodup {α : Type} {f : (Int × Nat) × OpenEntry → α} (hremoves : Removes o gone o')
    (hdistinct : (o.entries.map f).Nodup) :
    (o'.entries.map f).Nodup ∧ ∀ x ∈ gone, ∀ y ∈ o'.entries, f x ≠ f y := by
  rw [(hremoves.split.map f).nodup_iff, List.map_append] at hdistinct
  obtain ⟨-, hleft, hapart⟩ := List.nodup_append.mp hdistinct
  exact ⟨hleft, fun x hx y hy => hapart _ (List.mem_map_of_mem hx) _ (List.mem_map_of_mem hy)⟩

theorem Removes.numbered (hremoves : Removes o gone o') (h : o.Numbered) : o'.Numbered where
  valid := hremoves.valid
  distinct := (hremoves.nodup h.distinct).1
  lt y hy := hremoves.inserted ▸ h.lt y (hremoves.subset hy)

/-- If an entry is left, the first one is that of the whole list, and all others behind it are left as well. -/
theorem Drops.isFront (hdrops : Drops current o gone o') (h : o.Numbered) (hpeek : o'.queue.peek? = some x) :
    IsFront current x o.entries ∧ o'.entries.Perm (behind current x o.entries) := by
  have hmem : x ∈ o'.entries := PriorityQueue.peek?_mem hpeek
  have hle : ∀ y ∈ o'.entries, costThenNumber x.1 y.1 = true :=
    hdrops.valid.peek?_le costThenNumber_totalPreorder hpeek
  refine ⟨⟨hdrops.subset hmem, hdrops.front _ _ hpeek, fun y hy hcur => ?_⟩, ?_⟩
  · exact hle y (hdrops.settled.kept y hy hcur)
  · refine List.Perm.symm ((hdrops.split.filter _).trans (List.Perm.of_eq ?_))
    rw [List.filter_append, List.filter_eq_nil_iff.mpr, List.filter_eq_self.mpr, List.nil_append]
    · exact fun y hy => Bool.or_eq_true_iff.mpr (.inr (hle y hy))
    · -- an entry that is gone comes before the first one, and its number is another
      intro y hy hbehind
      rw [hdrops.stale y hy, Bool.false_or] at hbehind
      have hkey := costThenNumber_antisymm (hdrops.before y hy x hmem) hbehind
      exact (hdrops.toRemoves.nodup h.distinct).2 y hy x hmem (congrArg Prod.snd hkey)

theorem Removes.append_front (hremoves : Removes o gone o') (hpeek : o'.queue.peek? = some x) :
    Removes o (gone ++ [x]) { o' with queue := o'.queue.pop costThenNumber } where
  valid := hremoves.valid.pop costThenNumber_totalPreorder
  inserted := hremoves.inserted
  highWater := hremoves.highWater
  split := by
    rw [List.append_assoc]
    exact hremoves.split.trans ((PriorityQueue.pop_toList costThenNumber hpeek).append_left gone)

/-- Taking out gives the first current entry and leaves what is behind it, or no entry is current and none is left. -/
theorem Numbered.pop?_cases (h : o.Numbered) (current : Nat → Int → Bool) : ∃ gone o',
    Removes o gone o' ∧
    ((o.pop? current = (none, o') ∧ (∀ y ∈ o.entries, current y.2.node y.2.cost = false) ∧ o'.entries = []) ∨
      ∃ x ∈ gone, o.pop? current = (some (x.2.node, x.1.1, x.1.2), o') ∧ IsFront current x o.entries ∧
        o'.entries.Perm ((behind current x o.entries).erase x)) := by
  obtain ⟨gone, hdrops⟩ := settle_drops current h.valid
  cases hpeek : (o.settle current).queue.peek? with
  | none =>
    obtain ⟨hnil, hstale⟩ := hdrops.exhausted hpeek
    exact ⟨gone, _, hdrops.toRemoves, .inl ⟨pop?_of_peek?_eq_none hpeek, hstale, hnil⟩⟩
  | some x =>
    obtain ⟨hfront, hbehind⟩ := hdrops.isFront h hpeek
    have hpop := ((PriorityQueue.pop_toList costThenNumber hpeek).symm.trans hbehind).erase x
    rw [List.erase_cons_head] at hpop
    exact ⟨gone ++ [x], _, hdrops.append_front hpeek, .inr ⟨x, List.mem_append_right gone List.mem_cons_self,
      pop?_of_peek?_eq_some hpeek, hfront, hpop⟩⟩

theorem settle_settle (h : o.queue.Valid costThenNumber) : (o.settle current).settle current = o.settle current := by
  obtain ⟨gone, hdrops⟩ := settle_drops current h
  rw [settle]
  cases (o.settle current).size with
  | zero => rfl
  | succ fuel =>
    rw [settleWithin]
    cases hpeek : (o.settle current).queue.peek? with
    | none => rfl
    | some x => exact if_pos (hdrops.front _ _ hpeek)

/-- Looking for the least estimate gives what taking out would give next, and leaves it there. -/
theorem Numbered.least?_cases (h : o.Numbered) (current : Nat → Int → Bool) : ∃ gone,
    Removes o gone (o.least? current).2 ∧ (o.least? current).1 = (o.pop? current).1.map (·.2.1) ∧
    (o.least? current).2.pop? current = o.pop? current ∧
    (((o.pop? current).1 = none ∧ (o.least? current).2.entries = []) ∨
      ∃ x, IsFront current x o.entries ∧ (o.least? current).2.entries.Perm (behind current x o.entries)) := by
  obtain ⟨gone, hdrops⟩ := settle_drops current h.valid
  rw [least?_eq]
  have hpop : (o.settle current).pop? current = o.pop? current := by
    rw [pop?, settle_settle h.valid]
    rfl
  refine ⟨gone, hdrops.toRemoves, ?_, hpop, ?_⟩
  · cases hpeek : (o.settle current).queue.peek? with
    | none => rw [pop?_of_peek?_eq_none hpeek]; rfl
    | some x => rw [pop?_of_peek?_eq_some hpeek]; rfl
  · cases hpeek : (o.settle current).queue.peek? with
    | none => exact .inl ⟨by rw [pop?_of_peek?_eq_none hpeek], (hdrops.exhausted hpeek).1⟩
    | some x => exact .inr ⟨x, hdrops.isFront h hpeek⟩

end OpenList

/-- A call on an open list. -/
inductive OpenCall where
  | push (node : Nat) (estimate cost : Int)
  | pop (current : Nat → Int → Bool)
  | least (current : Nat → Int → Bool)

namespace OpenList

variable {current : Nat → Int → Bool} {o o' : OpenList} {calls : List OpenCall} {call : OpenCall}

/-- The list that a call leaves. -/
def perform (o : OpenList) : OpenCall → OpenList
  | .push node estimate cost => o.push node estimate cost
  | .pop current => (o.pop? current).2
  | .least current => (o.least? current).2

/-- What some calls in turn leave of an empty list. -/
def after (calls : List OpenCall) : OpenList :=
  calls.foldl perform {}

/-- The number of the entry that a call takes out. -/
def taken? (o : OpenList) : OpenCall → Option Nat
  | .pop current => (o.pop? current).1.map (·.2.2)
  | _ => none

/-- The numbers of the entries that some calls take out. -/
def taken (o : OpenList) : List OpenCall → List Nat
  | [] => []
  | call :: calls => (o.taken? call).toList ++ (o.perform call).taken calls

/-- How many entries some calls insert. -/
def pushes (calls : List OpenCall) : Nat :=
  calls.countP fun | .push .. => true | _ => false

theorem after_concat (calls : List OpenCall) (call : OpenCall) :
    after (calls ++ [call]) = (after calls).perform call := by
  rw [after, List.foldl_append]
  rfl

theorem taken_concat (o : OpenList) (calls : List OpenCall) (call : OpenCall) :
    o.taken (calls ++ [call]) = o.taken calls ++ ((calls.foldl perform o).taken? call).toList := by
  induction calls generalizing o with
  | nil => simp [taken]
  | cons c calls ih => rw [List.cons_append, taken, taken, ih, List.append_assoc, List.foldl_cons]

/-- Every call that is not an insertion takes entries out, and the one that it gives is among them. -/
theorem Numbered.perform_cases (h : o.Numbered) (call : OpenCall) :
    (∃ node estimate cost, call = .push node estimate cost) ∨
      pushes [call] = 0 ∧ ∃ gone, Removes o gone (o.perform call) ∧
        (o.taken? call).toList.Sublist (gone.map (·.1.2)) := by
  cases call with
  | push node estimate cost => exact .inl ⟨node, estimate, cost, rfl⟩
  | pop current =>
    refine .inr ⟨rfl, ?_⟩
    obtain ⟨gone, o', hremoves, ⟨hpop, -⟩ | ⟨x, hx, hpop, -⟩⟩ := h.pop?_cases current
    · exact ⟨gone, by simpa only [perform, hpop] using hremoves, by simp [taken?, hpop]⟩
    · refine ⟨gone, by simpa only [perform, hpop] using hremoves, ?_⟩
      simp only [taken?, hpop, Option.map_some, Option.toList_some, List.singleton_sublist]
      exact List.mem_map_of_mem (f := (·.1.2)) hx
  | least current =>
    obtain ⟨gone, hremoves, -⟩ := h.least?_cases current
    exact .inr ⟨rfl, gone, hremoves, List.nil_sublist _⟩

theorem Numbered.perform (h : o.Numbered) (call : OpenCall) : (o.perform call).Numbered := by
  rcases h.perform_cases call with ⟨node, estimate, cost, rfl⟩ | ⟨-, gone, hremoves, -⟩
  · exact h.push node estimate cost
  · exact hremoves.numbered h

theorem after_numbered (calls : List OpenCall) : (after calls).Numbered :=
  List.foldlRecOn calls _ numbered_empty fun _ h call _ => h.perform call

theorem inserted_after (calls : List OpenCall) : (after calls).inserted = pushes calls := by
  induction calls using List.reverseRecOn with
  | nil => rfl
  | append_singleton calls call ih =>
    rw [after_concat, pushes, List.countP_append, ← pushes, ← pushes, ← ih]
    rcases (after_numbered calls).perform_cases call with ⟨node, estimate, cost, rfl⟩ | ⟨hzero, gone, hremoves, -⟩
    · rfl
    · rw [hzero]
      exact hremoves.inserted

/-- No number is taken out twice, and none that was is left. -/
theorem taken_nodup (calls : List OpenCall) :
    (taken {} calls ++ (after calls).entries.map (·.1.2)).Nodup ∧
      ∀ number ∈ taken {} calls, number < (after calls).inserted := by
  induction calls using List.reverseRecOn with
  | nil => exact ⟨List.nodup_nil, nofun⟩
  | append_singleton calls call ih =>
    obtain ⟨hdistinct, hlt⟩ := ih
    have h := after_numbered calls
    rw [taken_concat, ← after, after_concat]
    rcases h.perform_cases call with ⟨node, estimate, cost, rfl⟩ | ⟨-, gone, hremoves, hsublist⟩
    · rw [show (after calls).taken? (.push node estimate cost) = none from rfl, Option.toList_none, List.append_nil]
      have hpush := ((after calls).entries_push node estimate cost).map (·.1.2)
      refine ⟨?_, fun number hmem => Nat.lt_succ_of_lt (hlt number hmem)⟩
      rw [perform, ((hpush.append_left _).trans List.perm_middle).nodup_iff, List.nodup_cons]
      refine ⟨fun hmem => ?_, hdistinct⟩
      rcases List.mem_append.mp hmem with hmem | hmem
      · exact Nat.lt_irrefl _ (hlt _ hmem)
      · obtain ⟨x, hx, heq⟩ := List.mem_map.mp hmem
        exact Nat.ne_of_lt (h.lt x hx) heq
    · have hsplit := (hremoves.split.map (·.1.2)).append_left (taken {} calls)
      rw [hsplit.nodup_iff, List.map_append, ← List.append_assoc] at hdistinct
      refine ⟨hdistinct.sublist ((hsublist.append_left _).append_right _), fun number hmem => ?_⟩
      rw [hremoves.inserted]
      rcases List.mem_append.mp hmem with hmem | hmem
      · exact hlt number hmem
      · obtain ⟨x, hx, rfl⟩ := List.mem_map.mp (hsublist.subset hmem)
        exact h.lt x (hremoves.split.mem_iff.mpr (List.mem_append_left _ hx))

/-- The list has never held more entries than its mark says, and has held as many. -/
theorem highWater_after (calls : List OpenCall) :
    IsGreatest {n | ∃ earlier, earlier <+: calls ∧ (after earlier).entries.length = n} (after calls).highWater := by
  induction calls using List.reverseRecOn with
  | nil =>
    refine ⟨⟨[], List.prefix_refl _, rfl⟩, ?_⟩
    rintro _ ⟨earlier, hearlier, rfl⟩
    rw [List.prefix_nil.mp hearlier]
    exact Nat.le_refl _
  | append_singleton calls call ih =>
    have h := after_numbered calls
    obtain ⟨⟨most, hmost, heq⟩, hle⟩ := ih
    have hlast : (after calls).entries.length ≤ (after calls).highWater := hle ⟨calls, List.prefix_refl _, rfl⟩
    have hstep : (after calls).highWater ≤ ((after calls).perform call).highWater ∧
        ((after calls).perform call).entries.length ≤ ((after calls).perform call).highWater ∧
        (((after calls).perform call).highWater = ((after calls).perform call).entries.length ∨
          ((after calls).perform call).highWater = (after calls).highWater) := by
      rcases h.perform_cases call with ⟨node, estimate, cost, rfl⟩ | ⟨-, gone, hremoves, -⟩
      · have hlength := ((after calls).entries_push node estimate cost).length_eq
        have hsize : (after calls).size = (after calls).entries.length := h.valid.size_eq
        simp only [perform, push, List.length_cons] at hlength ⊢
        omega
      · have hlength := hremoves.split.length_eq
        rw [List.length_append] at hlength
        have hhigh := hremoves.highWater
        omega
    obtain ⟨hgrows, hcovers, hcases⟩ := hstep
    constructor
    · rcases hcases with hnew | hold
      · exact ⟨_, List.prefix_refl _, by rw [after_concat, hnew]⟩
      · exact ⟨most, hmost.trans (List.prefix_append _ _), by rw [after_concat, hold, heq]⟩
    · rintro _ ⟨earlier, hearlier, rfl⟩
      rw [after_concat]
      rcases List.prefix_concat_iff.mp hearlier with rfl | hearlier
      · rwa [after_concat]
      · exact (hle ⟨earlier, hearlier, rfl⟩).trans hgrows

/-- After any calls, whatever is current for the next one: an insertion adds the entry under the number of insertions
before it; taking out gives the first current entry and loses only what stands before it and is not current; looking
for the least estimate gives what taking out would give, and leaves it. Nothing is taken out twice or left after it
was taken, and the mark is the greatest number of entries so far. -/
theorem after_spec (calls : List OpenCall) :
    let o := after calls
    (∀ node estimate cost,
      (o.push node estimate cost).entries.Perm (((estimate, pushes calls), ⟨node, cost⟩) :: o.entries)) ∧
    (∀ current,
      (o.pop? current).1 = none ∧ (∀ x ∈ o.entries, current x.2.node x.2.cost = false) ∧
        (o.pop? current).2.entries = [] ∨
      ∃ x, (o.pop? current).1 = some (x.2.node, x.1.1, x.1.2) ∧ IsFront current x o.entries ∧
        (o.pop? current).2.entries.Perm ((behind current x o.entries).erase x)) ∧
    (∀ current,
      (o.least? current).1 = (o.pop? current).1.map (·.2.1) ∧ (o.least? current).2.pop? current = o.pop? current ∧
      ((o.pop? current).1 = none ∧ (o.least? current).2.entries = [] ∨
        ∃ x, IsFront current x o.entries ∧ (o.least? current).2.entries.Perm (behind current x o.entries))) ∧
    (taken {} calls ++ o.entries.map (·.1.2)).Nodup ∧
    IsGreatest {n | ∃ earlier, earlier <+: calls ∧ (after earlier).entries.length = n} o.highWater := by
  intro o
  have h : o.Numbered := after_numbered calls
  refine ⟨fun node estimate cost => ?_, fun current => ?_, fun current => ?_, (taken_nodup calls).1,
    highWater_after calls⟩
  · rw [← inserted_after]
    exact o.entries_push node estimate cost
  · obtain ⟨gone, o', -, ⟨hpop, hstale, hnil⟩ | ⟨x, -, hpop, hfront, hbehind⟩⟩ := h.pop?_cases current
    · rw [hpop]
      exact .inl ⟨rfl, hstale, hnil⟩
    · rw [hpop]
      exact .inr ⟨x, rfl, hfront, hbehind⟩
  · obtain ⟨gone, -, hspec⟩ := h.least?_cases current
    exact hspec

/-- What looking for the least estimate drops stays away, also where it would be current again. -/
example : taken {} [.push 0 1 1, .push 1 2 2, .push 2 2 2, .least fun node _ => node != 0,
    .pop fun _ _ => true, .pop fun _ _ => true, .pop fun _ _ => true] = [1, 2] := by
  decide

end OpenList

end RankedPlans
