import Mathlib.Data.Nat.Bitwise
import Mathlib.Logic.Relation
import RankedPlans.Pattern.Matching

/-! Sets of positions as numbers: what the operations on them make of their members, and where repeated steps
lead from a set. -/

namespace RankedPlans.Positions

variable {a b i j k : Nat}

theorem testBit_minus (a b i : Nat) : (minus a b).testBit i = (a.testBit i && !b.testBit i) := by
  unfold minus
  induction i generalizing a b with
  | zero =>
    have hle : a &&& b ≤ a := Nat.and_le_left
    have hand : (a &&& b) % 2 = 1 ↔ a % 2 = 1 ∧ b % 2 = 1 := by simp
    rw [Nat.testBit_zero, Nat.testBit_zero, Nat.testBit_zero, Bool.eq_iff_iff]
    simp only [Bool.and_eq_true, Bool.not_eq_true', decide_eq_true_eq, decide_eq_false_iff_not]
    omega
  | succ i ih =>
    have hle : a &&& b ≤ a := Nat.and_le_left
    have hand : (a &&& b) % 2 = 1 → a % 2 = 1 := fun h => by
      simp only [Nat.and_mod_two_eq_one] at h
      exact h.1
    have hhalf : (a - (a &&& b)) / 2 = a / 2 - (a / 2 &&& b / 2) := by
      rw [← Nat.and_div_two]
      omega
    rw [Nat.testBit_succ, hhalf, ih, Nat.testBit_succ, Nat.testBit_succ]

/-- Taking out the least position takes out one position, and no other. -/
theorem exists_dropLeast (ha : a ≠ 0) :
    ∃ k, a.testBit k = true ∧ ∀ i, (dropLeast a).testBit i = (a.testBit i && decide (i ≠ k)) := by
  unfold dropLeast
  induction a using Nat.strongRecOn with
  | ind a ih =>
    rcases Nat.mod_two_eq_zero_or_one a with heven | hodd
    · obtain ⟨k, hk, hall⟩ := ih (a / 2) (by omega) (by omega)
      refine ⟨k + 1, by rwa [Nat.testBit_succ], fun i => ?_⟩
      cases i with
      | zero => simp [heven]
      | succ i =>
        have hhalf : (a &&& (a - 1)) / 2 = a / 2 &&& (a / 2 - 1) := by
          rw [Nat.and_div_two]
          exact congrArg _ (by omega)
        rw [Nat.testBit_succ, hhalf, hall, Nat.testBit_succ]
        simp
    · refine ⟨0, by simp [hodd], fun i => ?_⟩
      cases i with
      | zero =>
        have : (a - 1) % 2 = 0 := by omega
        simp [this]
      | succ i =>
        have hhalf : (a - 1) / 2 = a / 2 := by omega
        simp [Nat.testBit_succ, Nat.and_div_two, hhalf]

theorem least_spec (ha : a ≠ 0) : a.testBit (least a) = true ∧
    ∀ i, (dropLeast a).testBit i = (a.testBit i && decide (i ≠ least a)) := by
  obtain ⟨k, hk, hall⟩ := exists_dropLeast ha
  have hminus : minus a (dropLeast a) = 2 ^ k := Nat.eq_of_testBit_eq fun i => by
    rw [testBit_minus, hall, Nat.testBit_two_pow]
    by_cases hik : i = k
    · simp [hik, hk]
    · have : k ≠ i := fun h => hik h.symm
      simp [hik, this]
  rw [least, hminus, Nat.log2_two_pow]
  exact ⟨hk, hall⟩

section Spread

variable {table : Array Nat}

/-- The position leads to another one by the table. -/
def Row (table : Array Nat) (i j : Nat) : Prop :=
  (table.getD i 0).testBit j = true

/-- If all that a position leads to is in its row, then nothing is lost by passing over positions that were
found: their rows were found as well. -/
theorem testBit_spread (htable : ∀ {i j k}, Row table i j → Row table j k → Row table i k) {here found : Nat}
    (hfound : ∀ {j k}, found.testBit j = true → Row table j k → found.testBit k = true) :
    (spread table here found).testBit k = true ↔
      found.testBit k = true ∨ ∃ i, here.testBit i = true ∧ Row table i k := by
  fun_induction spread table here found with
  | case1 found => simp
  | case2 here found hne found' ih =>
    obtain ⟨hleast, hdrop⟩ := least_spec hne
    have hfound' : ∀ {k}, found'.testBit k = true ↔ found.testBit k = true ∨ Row table (least here) k := by
      simp [found', Row]
    rw [ih fun {j k} hj hjk => ?_, hfound']
    · constructor
      · rintro ((hk | hk) | ⟨i, hi, hik⟩)
        · exact .inl hk
        · exact .inr ⟨_, hleast, hk⟩
        · rw [testBit_minus, hdrop, Bool.and_eq_true, Bool.and_eq_true] at hi
          exact .inr ⟨i, hi.1.1, hik⟩
      · rintro (hk | ⟨i, hi, hik⟩)
        · exact .inl (.inl hk)
        · by_cases hmem : found'.testBit i = true
          · rcases hfound'.mp hmem with hi | hi
            · exact .inl (.inl (hfound hi hik))
            · exact .inl (.inr (htable hi hik))
          · by_cases hne : i = least here
            · exact .inl (.inr (hne ▸ hik))
            · exact .inr ⟨i, by simp [testBit_minus, hdrop, hi, hne, hmem], hik⟩
    · rcases hfound'.mp hj with hj | hj
      · exact hfound'.mpr (.inl (hfound hj hjk))
      · exact hfound'.mpr (.inr (htable hj hjk))

end Spread

/-- So many steps of a relation lead from one position to another. -/
def Steps (rel : Nat → Nat → Prop) : Nat → Nat → Nat → Prop
  | 0, i, j => i = j
  | n + 1, i, k => ∃ j, rel i j ∧ Steps rel n j k

theorem steps_iff_reflTransGen {rel : Nat → Nat → Prop} :
    (∃ n, Steps rel n i k) ↔ Relation.ReflTransGen rel i k := by
  constructor
  · rintro ⟨n, hsteps⟩
    induction n generalizing i with
    | zero => exact hsteps ▸ .refl
    | succ n ih =>
      obtain ⟨j, hij, hjk⟩ := hsteps
      exact .head hij (ih hjk)
  · intro hreach
    induction hreach using Relation.ReflTransGen.head_induction_on with
    | refl => exact ⟨0, rfl⟩
    | head hij _ ih =>
      obtain ⟨n, hsteps⟩ := ih
      exact ⟨n + 1, _, hij, hsteps⟩

theorem steps_add {rel : Nat → Nat → Prop} {m n : Nat} :
    Steps rel (m + n) i k ↔ ∃ j, Steps rel m i j ∧ Steps rel n j k := by
  induction m generalizing i with
  | zero => simp [Steps]
  | succ m ih =>
    rw [Nat.add_right_comm]
    simp only [Steps, ih]
    constructor
    · rintro ⟨l, hil, j, hlj, hjk⟩
      exact ⟨j, ⟨l, hil, hlj⟩, hjk⟩
    · rintro ⟨j, ⟨l, hil, hlj⟩, hjk⟩
      exact ⟨l, hil, j, hlj, hjk⟩

theorem steps_forward {rel : Nat → Nat → Prop} {last n : Nat} (hrel : ∀ {i j}, rel i j → i ≤ j ∧ j ≤ last)
    (hi : i ≤ last) (hsteps : Steps rel n i j) : i ≤ j ∧ j ≤ last := by
  induction n generalizing i with
  | zero => exact ⟨Nat.le_of_eq hsteps, hsteps ▸ hi⟩
  | succ n ih =>
    obtain ⟨m, him, hmj⟩ := hsteps
    obtain ⟨hle, hlast⟩ := hrel him
    exact ⟨Nat.le_trans hle (ih hlast hmj).1, (ih hlast hmj).2⟩

/-- A step takes sets of positions up to `last` by a relation between positions that goes forward. -/
structure Leads (last : Nat) (step : Nat → Nat) (rel : Nat → Nat → Prop) : Prop where
  forward : ∀ {i j}, rel i j → i ≤ j ∧ j ≤ last
  testBit_iff : ∀ {here : Nat}, (∀ i, here.testBit i = true → i ≤ last) →
    ∀ j, (step here).testBit j = true ↔ ∃ i, here.testBit i = true ∧ rel i j

namespace Leads

variable {last : Nat} {step : Nat → Nat} {rel : Nat → Nat → Prop} {here : Nat}

theorem le_last (h : Leads last step rel) (hhere : ∀ i, here.testBit i = true → i ≤ last) :
    ∀ j, (step here).testBit j = true → j ≤ last := by
  intro j hj
  obtain ⟨i, -, hij⟩ := (h.testBit_iff hhere j).mp hj
  exact (h.forward hij).2

theorem testBit_exactly (h : Leads last step rel) (n : Nat) (hhere : ∀ i, here.testBit i = true → i ≤ last) :
    (exactly step n here).testBit k = true ↔ ∃ i, here.testBit i = true ∧ Steps rel n i k := by
  induction n generalizing here with
  | zero => simp [exactly, Steps]
  | succ n ih =>
    have hexactly : exactly step (n + 1) here = exactly step n (step here) := by
      simp only [exactly]
      split
      · -- a set that a step leaves as it is stays so
        rename_i hfix
        rw [hfix]
        cases n with
        | zero => rfl
        | succ n => simp [exactly, hfix]
      · rfl
    rw [hexactly, ih (h.le_last hhere)]
    constructor
    · rintro ⟨j, hj, hjk⟩
      obtain ⟨i, hi, hij⟩ := (h.testBit_iff hhere j).mp hj
      exact ⟨i, hi, j, hij, hjk⟩
    · rintro ⟨i, hi, j, hij, hjk⟩
      exact ⟨j, (h.testBit_iff hhere j).mpr ⟨i, hi, hij⟩, hjk⟩

/-- Positions that were found before need no further step if all that one step from them leads to was found, too,
or is a step from a fresh position away. -/
theorem testBit_atMost (h : Leads last step rel) (n : Nat) {fresh found : Nat}
    (hle : ∀ i, found.testBit i = true → i ≤ last)
    (hfresh : ∀ i, fresh.testBit i = true → found.testBit i = true)
    (hfound : ∀ {i j}, found.testBit i = true → rel i j →
      found.testBit j = true ∨ ∃ i, fresh.testBit i = true ∧ rel i j) :
    (atMost step n fresh found).testBit k = true ↔
      ∃ m ≤ n, ∃ i, found.testBit i = true ∧ Steps rel m i k := by
  induction n generalizing fresh found with
  | zero => simp [atMost, Steps]
  | succ n ih =>
    have hnext : ∀ j, (minus (step fresh) found).testBit j = true ↔
        (∃ i, fresh.testBit i = true ∧ rel i j) ∧ found.testBit j = false := by
      intro j
      rw [testBit_minus, Bool.and_eq_true, h.testBit_iff (fun i hi => hle i (hfresh i hi)), Bool.not_eq_true']
    have hstep : ∀ j, (found ||| minus (step fresh) found).testBit j = true ↔
        found.testBit j = true ∨ ∃ i, found.testBit i = true ∧ rel i j := by
      intro j
      rw [Nat.testBit_or, Bool.or_eq_true, hnext]
      constructor
      · rintro (hj | ⟨⟨i, hi, hij⟩, -⟩)
        · exact .inl hj
        · exact .inr ⟨i, hfresh i hi, hij⟩
      · rintro (hj | ⟨i, hi, hij⟩)
        · exact .inl hj
        · cases hj : found.testBit j with
          | true => exact .inl rfl
          | false => exact .inr ⟨(hfound hi hij).resolve_left (by simp [hj]), rfl⟩
    have hall : (∃ m ≤ n + 1, ∃ i, found.testBit i = true ∧ Steps rel m i k) ↔
        ∃ m ≤ n, ∃ i, (found ||| minus (step fresh) found).testBit i = true ∧ Steps rel m i k := by
      simp only [hstep]
      constructor
      · rintro ⟨m, hm, i, hi, hik⟩
        cases m with
        | zero => exact ⟨0, Nat.zero_le n, i, .inl hi, hik⟩
        | succ m =>
          obtain ⟨j, hij, hjk⟩ := hik
          exact ⟨m, by omega, j, .inr ⟨i, hi, hij⟩, hjk⟩
      · rintro ⟨m, hm, j, hj | ⟨i, hi, hij⟩, hjk⟩
        · exact ⟨m, by omega, j, hj, hjk⟩
        · exact ⟨m + 1, by omega, i, hi, j, hij, hjk⟩
    rw [hall, atMost]
    split
    · rename_i hzero
      -- nothing is new, so steps never leave what was found
      have hstay : ∀ m i, found.testBit i = true → Steps rel m i k → found.testBit k = true := by
        intro m
        induction m with
        | zero => exact fun i hi hik => hik ▸ hi
        | succ m ih =>
          rintro i hi ⟨j, hij, hjk⟩
          refine ih j ?_ hjk
          simpa [hzero] using (hstep j).mpr (.inr ⟨i, hi, hij⟩)
      simp only [hzero, Nat.or_zero]
      exact ⟨fun hk => ⟨0, Nat.zero_le n, k, hk, rfl⟩, fun ⟨m, _, i, hi, hik⟩ => hstay m i hi hik⟩
    · refine ih (fun j hj => ?_) (fun j hj => by simp [hj]) fun {i j} hi hij => ?_
      · rcases (hstep j).mp hj with hj | ⟨i, hi, hij⟩
        · exact hle j hj
        · exact (h.forward hij).2
      · rw [Nat.testBit_or, Bool.or_eq_true] at hi
        rcases hi with hi | hi
        · exact .inl ((hstep j).mpr (.inr ⟨i, hi, hij⟩))
        · exact .inr ⟨i, hi, hij⟩

/-- The rows from a position on hold all that steps lead to, and the rows before it are still empty. -/
structure RowsFrom (rel : Nat → Nat → Prop) (last first : Nat) (table : Array Nat) : Prop where
  size_eq : table.size = last + 1
  row_iff : ∀ {i}, first ≤ i → i ≤ last → ∀ {j}, Row table i j ↔ Relation.ReflTransGen rel i j
  empty : ∀ {i}, i < first → ∀ {j}, ¬Row table i j

theorem reflTransGen_forward (h : Leads last step rel) (hij : Relation.ReflTransGen rel i j) : i ≤ j := by
  induction hij with
  | refl => exact Nat.le_refl i
  | tail _ hstep ih => exact Nat.le_trans ih (h.forward hstep).1

theorem RowsFrom.trans (h : Leads last step rel) {first : Nat} {table : Array Nat}
    (htable : RowsFrom rel last first table) (hij : Row table i j) (hjk : Row table j k) : Row table i k := by
  have hfirst : first ≤ i := by
    by_contra hlt
    exact htable.empty (by omega) hij
  have hlast : i ≤ last := by
    by_contra hlt
    rw [Row, Array.getD_eq_getD_getElem?, Array.getElem?_eq_none (by rw [htable.size_eq]; omega)] at hij
    simp at hij
  have hreach := (htable.row_iff hfirst hlast).mp hij
  have hj := h.reflTransGen_forward hreach
  have hj' : j ≤ last := by
    by_contra hlt
    rw [Row, Array.getD_eq_getD_getElem?, Array.getElem?_eq_none (by rw [htable.size_eq]; omega)] at hjk
    simp at hjk
  exact (htable.row_iff hfirst hlast).mpr
    (hreach.trans ((htable.row_iff (Nat.le_trans hfirst hj) hj').mp hjk))

theorem row_set {table : Array Nat} {found : Nat} (hi : i < table.size) :
    Row (table.setIfInBounds i found) j k ↔ if j = i then found.testBit k = true else Row table j k := by
  rw [Row, Row, Array.getD_eq_getD_getElem?, Array.getD_eq_getD_getElem?, Array.getElem?_setIfInBounds]
  by_cases hj : j = i
  · simp [hj, hi]
  · have hne : ¬i = j := fun h => hj h.symm
    simp [hj, hne]

/-- A row is filled by one step and the rows after it. -/
theorem RowsFrom.fill (h : Leads last step rel) {first : Nat} {table : Array Nat} (hfirst : first ≤ last)
    (htable : RowsFrom rel last (first + 1) table) :
    RowsFrom rel last first (table.setIfInBounds first (spread table (step (1 <<< first)) (1 <<< first))) := by
  have hsize : first < table.size := by
    rw [htable.size_eq]
    omega
  have hone : ∀ j, (1 <<< first).testBit j = true ↔ first = j := by
    simp [Nat.one_shiftLeft, Nat.testBit_two_pow]
  have hstep : ∀ j, (step (1 <<< first)).testBit j = true ↔ rel first j := by
    intro j
    rw [h.testBit_iff fun i hi => (hone i).mp hi ▸ hfirst]
    simp only [hone, exists_eq_left']
  have hfilled : ∀ j, (spread table (step (1 <<< first)) (1 <<< first)).testBit j = true ↔
      Relation.ReflTransGen rel first j := by
    intro j
    rw [testBit_spread (htable.trans h), hone]
    · constructor
      · rintro (rfl | ⟨i, hi, hij⟩)
        · exact .refl
        · have hlt : first + 1 ≤ i := by
            by_contra hlt
            exact htable.empty (by omega) hij
          have hrel := (hstep i).mp hi
          exact .head hrel ((htable.row_iff hlt (h.forward hrel).2).mp hij)
      · -- steps that stay at the position itself are passed over
        suffices hsplit : ∀ {i}, Relation.ReflTransGen rel i j → i = first →
            first = j ∨ ∃ c, (step (1 <<< first)).testBit c = true ∧ Row table c j from fun hreach => hsplit hreach rfl
        intro i hreach
        induction hreach using Relation.ReflTransGen.head_induction_on with
        | refl => exact fun heq => .inl heq.symm
        | @head i c hic hcj ih =>
          rintro rfl
          by_cases hstay : c = i
          · exact ih hstay
          · obtain ⟨hle, hlast⟩ := h.forward hic
            exact .inr ⟨c, (hstep c).mpr hic, (htable.row_iff (by omega) hlast).mpr hcj⟩
    · intro j k hj hjk
      obtain rfl := (hone j).mp hj
      exact absurd hjk (htable.empty (Nat.lt_succ_self _))
  refine ⟨by rw [Array.size_setIfInBounds, htable.size_eq], fun {i} hi hlast j => ?_, fun {i} hi j => ?_⟩
  · rw [row_set hsize]
    split
    · rename_i heq
      rw [hfilled, heq]
    · exact htable.row_iff (by omega) hlast
  · rw [row_set hsize, if_neg (by omega)]
    exact htable.empty (by omega)

theorem rowsFrom_closure (h : Leads last step rel) : RowsFrom rel last 0 (closure last step) := by
  have hfrom : ∀ n first, first + n = last + 1 → RowsFrom rel last first ((List.range' first n).foldr
      (fun i table => table.setIfInBounds i (spread table (step (1 <<< i)) (1 <<< i)))
      (Array.replicate (last + 1) 0)) := by
    intro n
    induction n with
    | zero =>
      intro first hfirst
      refine ⟨by simp, fun hi hlast => absurd hlast (by omega), fun {i} _ j => ?_⟩
      rw [Row, List.range'_zero, List.foldr_nil, Array.getD_eq_getD_getElem?, Array.getElem?_replicate]
      split <;> simp
    | succ n ih =>
      intro first hfirst
      rw [List.range'_succ, List.foldr_cons]
      exact (ih (first + 1) (by omega)).fill h (by omega)
  rw [closure, List.range_eq_range']
  exact hfrom (last + 1) 0 (Nat.zero_add _)

theorem testBit_closure (h : Leads last step rel) (hhere : ∀ i, here.testBit i = true → i ≤ last) :
    (spread (closure last step) here 0).testBit k = true ↔
      ∃ i, here.testBit i = true ∧ Relation.ReflTransGen rel i k := by
  have hrows := h.rowsFrom_closure
  rw [testBit_spread (hrows.trans h) (by simp)]
  simp only [Nat.zero_testBit, Bool.false_eq_true, false_or]
  exact exists_congr fun i => and_congr_right fun hi => hrows.row_iff (Nat.zero_le i) (hhere i hi)

theorem congr {rel' : Nat → Nat → Prop} (h : Leads last step rel) (hrel : ∀ i j, rel i j ↔ rel' i j) :
    Leads last step rel' := by
  obtain rfl : rel = rel' := funext fun i => funext fun j => propext (hrel i j)
  exact h

theorem stay {allowed : Nat} (hallowed : ∀ i, allowed.testBit i = true → i ≤ last) :
    Leads last (fun here => here &&& allowed) fun i j => i = j ∧ allowed.testBit i = true where
  forward := by
    rintro i _ ⟨rfl, hi⟩
    exact ⟨Nat.le_refl i, hallowed i hi⟩
  testBit_iff _ j := by
    rw [Nat.testBit_and, Bool.and_eq_true]
    constructor
    · rintro ⟨hj, hallowed⟩
      exact ⟨j, hj, rfl, hallowed⟩
    · rintro ⟨_, hi, rfl, hallowed⟩
      exact ⟨hi, hallowed⟩

theorem advance {allowed : Nat} (hallowed : ∀ i, allowed.testBit i = true → i < last) :
    Leads last (fun here => (here &&& allowed) <<< 1) fun i j => j = i + 1 ∧ allowed.testBit i = true where
  forward := by
    rintro i _ ⟨rfl, hi⟩
    exact ⟨Nat.le_succ i, hallowed i hi⟩
  testBit_iff _ j := by
    rw [Nat.testBit_shiftLeft, Bool.and_eq_true, decide_eq_true_eq, Nat.testBit_and, Bool.and_eq_true]
    constructor
    · rintro ⟨hj, hi, hallowed⟩
      exact ⟨j - 1, hi, by omega, hallowed⟩
    · rintro ⟨i, hi, rfl, hallowed⟩
      exact ⟨by omega, hi, hallowed⟩

variable {step' : Nat → Nat} {rel' : Nat → Nat → Prop}

theorem comp (h : Leads last step rel) (h' : Leads last step' rel') :
    Leads last (fun here => step' (step here)) fun i k => ∃ j, rel i j ∧ rel' j k where
  forward := by
    rintro i k ⟨j, hij, hjk⟩
    exact ⟨Nat.le_trans (h.forward hij).1 (h'.forward hjk).1, (h'.forward hjk).2⟩
  testBit_iff hhere k := by
    rw [h'.testBit_iff (h.le_last hhere)]
    constructor
    · rintro ⟨j, hj, hjk⟩
      obtain ⟨i, hi, hij⟩ := (h.testBit_iff hhere j).mp hj
      exact ⟨i, hi, j, hij, hjk⟩
    · rintro ⟨i, hi, j, hij, hjk⟩
      exact ⟨j, (h.testBit_iff hhere j).mpr ⟨i, hi, hij⟩, hjk⟩

theorem union (h : Leads last step rel) (h' : Leads last step' rel') :
    Leads last (fun here => step here ||| step' here) fun i j => rel i j ∨ rel' i j where
  forward hij := hij.elim (fun hij => h.forward hij) fun hij => h'.forward hij
  testBit_iff hhere j := by
    rw [Nat.testBit_or, Bool.or_eq_true, h.testBit_iff hhere, h'.testBit_iff hhere, ← exists_or]
    exact exists_congr fun i => and_or_left.symm

theorem counted (h : Leads last step rel) (times more : Nat) :
    Leads last (fun here => atMost step more (exactly step times here) (exactly step times here))
      fun i k => i ≤ last ∧ ∃ n, times ≤ n ∧ n ≤ times + more ∧ Steps rel n i k where
  forward := by
    rintro i k ⟨hi, n, -, -, hsteps⟩
    exact steps_forward h.forward hi hsteps
  testBit_iff {here} hhere k := by
    have hle : ∀ j, (exactly step times here).testBit j = true → j ≤ last := by
      intro j hj
      obtain ⟨i, hi, hsteps⟩ := (h.testBit_exactly times hhere).mp hj
      exact (steps_forward h.forward (hhere i hi) hsteps).2
    rw [h.testBit_atMost more hle (fun i hi => hi) fun hi hij => .inr ⟨_, hi, hij⟩]
    constructor
    · rintro ⟨m, hm, j, hj, hjk⟩
      obtain ⟨i, hi, hij⟩ := (h.testBit_exactly times hhere).mp hj
      exact ⟨i, hi, hhere i hi, times + m, by omega, by omega, steps_add.mpr ⟨j, hij, hjk⟩⟩
    · rintro ⟨i, hi, -, n, hleast, hmost, hsteps⟩
      obtain ⟨m, rfl⟩ := Nat.exists_eq_add_of_le hleast
      obtain ⟨j, hij, hjk⟩ := steps_add.mp hsteps
      exact ⟨m, by omega, j, (h.testBit_exactly times hhere).mpr ⟨i, hi, hij⟩, hjk⟩

theorem closure (h : Leads last step rel) :
    Leads last (fun here => spread (Positions.closure last step) here 0)
      fun i k => i ≤ last ∧ ∃ n, Steps rel n i k where
  forward := by
    rintro i k ⟨hi, n, hsteps⟩
    exact steps_forward h.forward hi hsteps
  testBit_iff hhere k := by
    rw [h.testBit_closure hhere]
    simp only [steps_iff_reflTransGen]
    exact exists_congr fun i => and_congr_right fun hi => (and_iff_right (hhere i hi)).symm

end Leads

end RankedPlans.Positions
