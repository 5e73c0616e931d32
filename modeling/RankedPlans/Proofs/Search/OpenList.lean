import RankedPlans.Proofs.Heap.PriorityQueue
import RankedPlans.Search.OpenList

/-! Dropping outdated entries from the front of an open list loses no current one, so the least estimate
of a list is that of a current entry. -/

namespace RankedPlans.OpenList

variable {current : Nat → Int → Bool} {o o' : OpenList} {gone : List ((Int × Nat) × OpenEntry)}
  {x : (Int × Nat) × OpenEntry}

/-- The entries with their keys. -/
def entries (o : OpenList) : List ((Int × Nat) × OpenEntry) :=
  o.queue.toList

theorem entries_push (o : OpenList) (node : Nat) (estimate cost : Int) :
    (o.push node estimate cost).entries.Perm
      (((estimate, o.inserted), ⟨node, cost⟩) :: o.entries) :=
  PriorityQueue.push_toList costThenNumber o.queue _ _

/-- A list in which outdated entries may have been dropped. -/
structure Settled (current : Nat → Int → Bool) (o o' : OpenList) : Prop where
  valid : o'.queue.Valid costThenNumber
  subset : ∀ x ∈ o'.entries, x ∈ o.entries
  kept : ∀ x ∈ o.entries, current x.2.node x.2.cost = true → x ∈ o'.entries

/-- A list from which some entries were taken. -/
structure Removes (o : OpenList) (gone : List ((Int × Nat) × OpenEntry)) (o' : OpenList) : Prop where
  valid : o'.queue.Valid costThenNumber
  inserted : o'.inserted = o.inserted
  highWater : o'.highWater = o.highWater
  split : o.entries.Perm (gone ++ o'.entries)

theorem Removes.subset (h : Removes o gone o') (hx : x ∈ o'.entries) : x ∈ o.entries :=
  h.split.mem_iff.mpr (List.mem_append_right gone hx)

/-- A list without entries that are not current, taken from the front up to the first one that is current. -/
structure Drops (current : Nat → Int → Bool) (o : OpenList) (gone : List ((Int × Nat) × OpenEntry))
    (o' : OpenList) : Prop extends Removes o gone o' where
  stale : ∀ x ∈ gone, current x.2.node x.2.cost = false
  before : ∀ x ∈ gone, ∀ y ∈ o'.entries, costThenNumber x.1 y.1 = true
  front : ∀ key entry, o'.queue.peek? = some (key, entry) → current entry.node entry.cost = true

theorem drops_nil (h : o.queue.Valid costThenNumber)
    (hfront : ∀ key entry, o.queue.peek? = some (key, entry) → current entry.node entry.cost = true) :
    Drops current o [] o :=
  ⟨⟨h, rfl, rfl, List.Perm.refl _⟩, nofun, nofun, hfront⟩

theorem settleWithin_drops (h : o.queue.Valid costThenNumber) {fuel : Nat} (hf : o.entries.length ≤ fuel) :
    ∃ gone, Drops current o gone (settleWithin current fuel o) := by
  induction fuel generalizing o with
  | zero =>
    have hnil : o.queue.toList = [] := List.eq_nil_of_length_eq_zero (Nat.le_zero.mp hf)
    refine ⟨[], drops_nil h fun key entry hpeek => ?_⟩
    rw [PriorityQueue.peek?_eq_none_iff.mpr hnil] at hpeek
    cases hpeek
  | succ fuel ih =>
    unfold settleWithin
    cases hpeek : o.queue.peek? with
    | none => exact ⟨[], drops_nil h fun key entry hp => by cases hpeek.symm.trans hp⟩
    | some front =>
      obtain ⟨key, entry⟩ := front
      simp only
      split
      · rename_i hcur
        refine ⟨[], drops_nil h fun key' entry' hp => ?_⟩
        obtain ⟨rfl, rfl⟩ := Prod.mk.inj (Option.some.inj (hpeek.symm.trans hp))
        exact hcur
      · rename_i hcur
        have hpop := PriorityQueue.pop_toList costThenNumber hpeek
        have hlen := hpop.length_eq
        rw [List.length_cons] at hlen
        obtain ⟨gone, hdrops⟩ := ih (o := { o with queue := o.queue.pop costThenNumber })
          (h.pop costThenNumber_totalPreorder) (by simp only [entries] at *; omega)
        refine ⟨(key, entry) :: gone, ⟨hdrops.valid, hdrops.inserted, hdrops.highWater,
          hpop.trans (hdrops.split.cons _)⟩, ?_, ?_, hdrops.front⟩
        · exact List.forall_mem_cons.mpr ⟨Bool.eq_false_iff.mpr hcur, hdrops.stale⟩
        · refine List.forall_mem_cons.mpr ⟨fun y hy => ?_, hdrops.before⟩
          exact h.peek?_le costThenNumber_totalPreorder hpeek y
            (hpop.mem_iff.mpr (List.mem_cons_of_mem _ (hdrops.subset hy)))

theorem settle_drops (current : Nat → Int → Bool) (h : o.queue.Valid costThenNumber) :
    ∃ gone, Drops current o gone (o.settle current) :=
  settleWithin_drops h (Nat.le_of_eq h.size_eq.symm)

theorem Drops.settled (h : Drops current o gone o') : Settled current o o' where
  valid := h.valid
  subset _ := h.subset
  kept x hx hcur := by
    refine (List.mem_append.mp (h.split.mem_iff.mp hx)).resolve_left fun hgone => ?_
    cases (h.stale x hgone).symm.trans hcur

/-- If nothing is left at the front, no entry was current. -/
theorem Drops.exhausted (h : Drops current o gone o') (hpeek : o'.queue.peek? = none) :
    o'.entries = [] ∧ ∀ x ∈ o.entries, current x.2.node x.2.cost = false := by
  have hnil : o'.entries = [] := PriorityQueue.peek?_eq_none_iff.mp hpeek
  refine ⟨hnil, fun x hx => h.stale x ?_⟩
  rwa [h.split.mem_iff, hnil, List.append_nil] at hx

theorem pop?_of_peek?_eq_none (hpeek : (o.settle current).queue.peek? = none) :
    o.pop? current = (none, o.settle current) := by
  simp only [pop?, hpeek]

theorem pop?_of_peek?_eq_some (hpeek : (o.settle current).queue.peek? = some x) :
    o.pop? current = (some (x.2.node, x.1.1, x.1.2),
      { o.settle current with queue := (o.settle current).queue.pop costThenNumber }) := by
  simp only [pop?, hpeek]

theorem least?_eq (current : Nat → Int → Bool) (o : OpenList) :
    o.least? current = ((o.settle current).queue.peek?.map (·.1.1), o.settle current) := rfl

/-- What taking the first current entry out gives. -/
theorem pop?_spec (h : o.queue.Valid costThenNumber) :
    (∃ o', o.pop? current = (none, o') ∧ Settled current o o' ∧
      ∀ x ∈ o.entries, current x.2.node x.2.cost = false) ∨
    ∃ v estimate number cost o', o.pop? current = (some (v, estimate, number), o') ∧
      ((estimate, number), ⟨v, cost⟩) ∈ o.entries ∧ current v cost = true ∧
      (∀ x ∈ o.entries, current x.2.node x.2.cost = true → estimate ≤ x.1.1) ∧
      o'.queue.Valid costThenNumber ∧ (∀ x ∈ o'.entries, x ∈ o.entries) ∧
      ∀ x ∈ o.entries, current x.2.node x.2.cost = true → x.2.node ≠ v → x ∈ o'.entries := by
  obtain ⟨gone, hdrops⟩ := settle_drops current h
  have hsettled := hdrops.settled
  cases hpeek : (o.settle current).queue.peek? with
  | none => exact .inl ⟨_, pop?_of_peek?_eq_none hpeek, hsettled, (hdrops.exhausted hpeek).2⟩
  | some front =>
    obtain ⟨⟨estimate, number⟩, v, cost⟩ := front
    have hpop := PriorityQueue.pop_toList costThenNumber hpeek
    refine .inr ⟨v, estimate, number, cost, _, pop?_of_peek?_eq_some hpeek, ?_, hdrops.front _ _ hpeek,
      fun x hx hcur => ?_, hsettled.valid.pop costThenNumber_totalPreorder, fun x hx => ?_, fun x hx hcur hne => ?_⟩
    · exact hsettled.subset _ (PriorityQueue.peek?_mem hpeek)
    · exact le_of_costThenNumber
        (hsettled.valid.peek?_le costThenNumber_totalPreorder hpeek x (hsettled.kept x hx hcur))
    · exact hsettled.subset x (hpop.mem_iff.mpr (List.mem_cons_of_mem _ hx))
    · rcases List.mem_cons.mp (hpop.mem_iff.mp (hsettled.kept x hx hcur)) with rfl | hx
      · exact absurd rfl hne
      · exact hx

/-- The least estimate is at most that of every current entry. -/
theorem least?_spec (h : o.queue.Valid costThenNumber) :
    Settled current o (o.least? current).2 ∧ ∀ x ∈ o.entries, current x.2.node x.2.cost = true →
      ∃ f, (o.least? current).1 = some f ∧ f ≤ x.1.1 := by
  obtain ⟨gone, hdrops⟩ := settle_drops current h
  rw [least?_eq]
  refine ⟨hdrops.settled, fun x hx hcur => ?_⟩
  cases hpeek : (o.settle current).queue.peek? with
  | none => cases ((hdrops.exhausted hpeek).2 x hx).symm.trans hcur
  | some front =>
    refine ⟨front.1.1, rfl, le_of_costThenNumber ?_⟩
    exact hdrops.valid.peek?_le costThenNumber_totalPreorder hpeek x (hdrops.settled.kept x hx hcur)

theorem least?_eq_none (h : o.queue.Valid costThenNumber)
    (hstale : ∀ x ∈ o.entries, current x.2.node x.2.cost = false) : (o.least? current).1 = none := by
  obtain ⟨gone, hdrops⟩ := settle_drops current h
  rw [least?_eq]
  cases hpeek : (o.settle current).queue.peek? with
  | none => rfl
  | some front =>
    have hmem := hdrops.settled.subset front (PriorityQueue.peek?_mem hpeek)
    cases (hstale front hmem).symm.trans (hdrops.front _ _ hpeek)

end RankedPlans.OpenList
