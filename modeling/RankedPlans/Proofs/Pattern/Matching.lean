import RankedPlans.Proofs.Pattern.Positions

/-! Matching is right: the search over sets of positions finds a match exactly if the expression matches some
part of the text. -/

namespace RankedPlans.Pattern

open Positions

variable {text : List Char} {p q : Pattern} {i j k : Nat}

/-- No repetition asks for more matches than it allows. -/
def Proper : Pattern → Prop
  | group _ p => Proper p
  | concat p q => Proper p ∧ Proper q
  | either p q => Proper p ∧ Proper q
  | repeated p least most _ => Proper p ∧ ∀ m ∈ most, least ≤ m
  | _ => True

section Occurrences

theorem testBit_passing (table : Occurrences) (ok : Char → Bool) (i : Nat) :
    (table.passing ok).testBit i = true ↔ ∃ e ∈ table, ok e.1 = true ∧ e.2.testBit i = true := by
  have hfold : ∀ found, (table.foldl (fun (found : Nat) (e : Char × Nat) =>
      if ok e.1 then found ||| e.2 else found) found).testBit i = true ↔ found.testBit i = true ∨
        ∃ e ∈ table, ok e.1 = true ∧ e.2.testBit i = true := by
    induction table with
    | nil => simp
    | cons e table ih =>
      intro found
      rw [List.foldl_cons, ih]
      by_cases hok : ok e.1 = true
      · simp [hok, or_assoc]
      · simp [hok]
  refine (hfold 0).trans ?_
  simp

theorem exists_mem_add (table : Occurrences) (c : Char) (j : Nat) (ok : Char → Bool) (i : Nat) :
    (∃ e ∈ table.add c j, ok e.1 = true ∧ e.2.testBit i = true) ↔
      (ok c = true ∧ i = j) ∨ ∃ e ∈ table, ok e.1 = true ∧ e.2.testBit i = true := by
  have hone : (1 <<< j).testBit i = true ↔ i = j := by
    rw [Nat.one_shiftLeft, Nat.testBit_two_pow, decide_eq_true_eq]
    exact eq_comm
  induction table with
  | nil => simp only [Occurrences.add, List.mem_singleton, exists_eq_left, hone, List.not_mem_nil, false_and,
    exists_false, or_false]
  | cons e table ih =>
    obtain ⟨d, here⟩ := e
    rw [Occurrences.add]
    split
    · rename_i heq
      subst heq
      simp only [List.mem_cons, exists_eq_or_imp, Nat.testBit_or, Bool.or_eq_true, hone]
      rw [and_or_left, or_assoc, or_left_comm]
    · simp only [List.mem_cons, exists_eq_or_imp, ih]
      exact or_left_comm

/-- The positions before the characters of the text that pass a test. -/
theorem testBit_passing_ofText (text : List Char) (ok : Char → Bool) (i : Nat) :
    ((Occurrences.ofText text).passing ok).testBit i = true ↔ ∃ c, text[i]? = some c ∧ ok c = true := by
  have hfold : ∀ (l : List (Char × Nat)) (table : Occurrences),
      (∃ e ∈ l.foldl (fun table a => table.add a.1 a.2) table, ok e.1 = true ∧ e.2.testBit i = true) ↔
        (∃ c, (c, i) ∈ l ∧ ok c = true) ∨ ∃ e ∈ table, ok e.1 = true ∧ e.2.testBit i = true := by
    intro l
    induction l with
    | nil => simp
    | cons a l ih =>
      intro table
      rw [List.foldl_cons, ih, exists_mem_add]
      simp only [List.mem_cons, Prod.ext_iff]
      constructor
      · rintro (⟨c, hc, hok⟩ | ⟨hok, rfl⟩ | h)
        · exact .inl ⟨c, .inr hc, hok⟩
        · exact .inl ⟨a.1, .inl ⟨rfl, rfl⟩, hok⟩
        · exact .inr h
      · rintro (⟨c, ⟨rfl, rfl⟩ | hc, hok⟩ | h)
        · exact .inr (.inl ⟨hok, rfl⟩)
        · exact .inl ⟨c, hc, hok⟩
        · exact .inr (.inr h)
  rw [testBit_passing]
  refine (hfold text.zipIdx []).trans ?_
  simp [List.mk_mem_zipIdx_iff_getElem?]

end Occurrences

section Spans

theorem wordAfter_iff : wordAfter text i = true ↔ ∃ c, text[i]? = some c ∧ Text.isWordChar c = true :=
  Option.any_eq_true _ _

theorem lt_length_of_wordAfter (h : wordAfter text i = true) : i < text.length := by
  obtain ⟨c, hc, -⟩ := wordAfter_iff.mp h
  exact (List.getElem?_eq_some_iff.mp hc).1

theorem wordBefore_iff : wordBefore text i = true ↔ 0 < i ∧ wordAfter text (i - 1) = true := by
  rw [wordBefore, Bool.and_eq_true, decide_eq_true_eq]

theorem spans_empty_iff : Spans text .empty i j ↔ i = j ∧ i ≤ text.length := by
  constructor
  · intro h
    cases h with
    | empty hi => exact ⟨rfl, hi⟩
  · rintro ⟨rfl, hi⟩
    exact .empty hi

theorem spans_any_iff : Spans text .any i j ↔ j = i + 1 ∧ ∃ c, text[i]? = some c ∧ c ≠ '\n' := by
  constructor
  · intro h
    cases h with
    | any hc hne => exact ⟨rfl, _, hc, hne⟩
  · rintro ⟨rfl, c, hc, hne⟩
    exact .any hc hne

theorem spans_literal_iff {c : Char} : Spans text (.literal c) i j ↔ j = i + 1 ∧ text[i]? = some c := by
  constructor
  · intro h
    cases h with
    | literal hc => exact ⟨rfl, hc⟩
  · rintro ⟨rfl, hc⟩
    exact .literal hc

theorem spans_oneOf_iff {s : CharClass} :
    Spans text (.oneOf s) i j ↔ j = i + 1 ∧ ∃ c, text[i]? = some c ∧ s.accepts c = true := by
  constructor
  · intro h
    cases h with
    | oneOf hc hs => exact ⟨rfl, _, hc, hs⟩
  · rintro ⟨rfl, c, hc, hs⟩
    exact .oneOf hc hs

theorem spans_start_iff : Spans text .start i j ↔ i = j ∧ i = 0 := by
  constructor
  · intro h
    cases h with
    | start => exact ⟨rfl, rfl⟩
  · rintro ⟨rfl, rfl⟩
    exact .start

theorem spans_stop_iff : Spans text .stop i j ↔ i = j ∧ i = text.length := by
  constructor
  · intro h
    cases h with
    | stop => exact ⟨rfl, rfl⟩
  · rintro ⟨rfl, rfl⟩
    exact .stop

theorem spans_wordStart_iff :
    Spans text .wordStart i j ↔ i = j ∧ wordAfter text i = true ∧ wordBefore text i = false := by
  constructor
  · intro h
    cases h with
    | wordStart hbefore hafter => exact ⟨rfl, hafter, hbefore⟩
  · rintro ⟨rfl, hafter, hbefore⟩
    exact .wordStart hbefore hafter

theorem spans_wordStop_iff :
    Spans text .wordStop i j ↔ i = j ∧ wordBefore text i = true ∧ wordAfter text i = false := by
  constructor
  · intro h
    cases h with
    | wordStop hbefore hafter => exact ⟨rfl, hbefore, hafter⟩
  · rintro ⟨rfl, hbefore, hafter⟩
    exact .wordStop hbefore hafter

theorem spans_group_iff {captures : Bool} : Spans text (.group captures p) i j ↔ Spans text p i j := by
  constructor
  · intro h
    cases h with
    | group h => exact h
  · exact .group

theorem spans_concat_iff : Spans text (.concat p q) i k ↔ ∃ j, Spans text p i j ∧ Spans text q j k := by
  constructor
  · intro h
    cases h with
    | concat hp hq => exact ⟨_, hp, hq⟩
  · rintro ⟨j, hp, hq⟩
    exact .concat hp hq

theorem spans_either_iff : Spans text (.either p q) i j ↔ Spans text p i j ∨ Spans text q i j := by
  constructor
  · intro h
    cases h with
    | left h => exact .inl h
    | right h => exact .inr h
  · rintro (h | h)
    · exact .left h
    · exact .right h

/-- Matches in a row are steps from one match to the next. -/
theorem spansTimes_iff (hforward : ∀ {i j}, Spans text p i j → i ≤ j ∧ j ≤ text.length) {n : Nat} :
    SpansTimes text p n i j ↔ i ≤ text.length ∧ Steps (Spans text p) n i j := by
  induction n generalizing i with
  | zero =>
    constructor
    · intro h
      cases h with
      | zero hi => exact ⟨hi, rfl⟩
    · rintro ⟨hi, rfl⟩
      exact .zero hi
  | succ n ih =>
    constructor
    · intro h
      cases h with
      | succ hspan hrest =>
        have hle := hforward hspan
        exact ⟨by omega, _, hspan, (ih.mp hrest).2⟩
    · rintro ⟨-, m, hspan, hrest⟩
      exact .succ hspan (ih.mpr ⟨(hforward hspan).2, hrest⟩)

theorem spans_forward (h : Spans text p i j) : i ≤ j ∧ j ≤ text.length := by
  induction p generalizing i j with
  | empty =>
    obtain ⟨rfl, hi⟩ := spans_empty_iff.mp h
    exact ⟨Nat.le_refl i, hi⟩
  | any =>
    obtain ⟨rfl, c, hc, -⟩ := spans_any_iff.mp h
    exact ⟨Nat.le_succ i, (List.getElem?_eq_some_iff.mp hc).1⟩
  | literal =>
    obtain ⟨rfl, hc⟩ := spans_literal_iff.mp h
    exact ⟨Nat.le_succ i, (List.getElem?_eq_some_iff.mp hc).1⟩
  | oneOf =>
    obtain ⟨rfl, c, hc, -⟩ := spans_oneOf_iff.mp h
    exact ⟨Nat.le_succ i, (List.getElem?_eq_some_iff.mp hc).1⟩
  | start =>
    obtain ⟨rfl, rfl⟩ := spans_start_iff.mp h
    exact ⟨Nat.le_refl 0, Nat.zero_le _⟩
  | stop =>
    obtain ⟨rfl, rfl⟩ := spans_stop_iff.mp h
    exact ⟨Nat.le_refl _, Nat.le_refl _⟩
  | wordStart =>
    obtain ⟨rfl, hafter, -⟩ := spans_wordStart_iff.mp h
    exact ⟨Nat.le_refl i, Nat.le_of_lt (lt_length_of_wordAfter hafter)⟩
  | wordStop =>
    obtain ⟨rfl, hbefore, -⟩ := spans_wordStop_iff.mp h
    obtain ⟨hpos, hafter⟩ := wordBefore_iff.mp hbefore
    have := lt_length_of_wordAfter hafter
    omega
  | group _ p ih => exact ih (spans_group_iff.mp h)
  | concat p q ihp ihq =>
    obtain ⟨m, hp, hq⟩ := spans_concat_iff.mp h
    exact ⟨Nat.le_trans (ihp hp).1 (ihq hq).1, (ihq hq).2⟩
  | either p q ihp ihq => exact (spans_either_iff.mp h).elim ihp ihq
  | repeated p least most greedy ih =>
    cases h with
    | repeated _ _ htimes =>
      obtain ⟨hi, hsteps⟩ := (spansTimes_iff ih).mp htimes
      exact steps_forward ih hi hsteps

theorem spans_repeated_iff {least : Nat} {most : Option Nat} {greedy : Bool} :
    Spans text (.repeated p least most greedy) i j ↔
      i ≤ text.length ∧ ∃ n, least ≤ n ∧ (∀ m ∈ most, n ≤ m) ∧ Steps (Spans text p) n i j := by
  constructor
  · intro h
    cases h with
    | repeated hleast hmost htimes =>
      obtain ⟨hi, hsteps⟩ := (spansTimes_iff spans_forward).mp htimes
      exact ⟨hi, _, hleast, hmost, hsteps⟩
  · rintro ⟨hi, n, hleast, hmost, hsteps⟩
    exact .repeated hleast hmost ((spansTimes_iff spans_forward).mpr ⟨hi, hsteps⟩)

/-- An expression that matches empty parts only stays at some positions. -/
theorem leads_stay {allowed : Nat} (h : ∀ i j, Spans text p i j ↔ i = j ∧ allowed.testBit i = true) :
    Leads text.length (fun here => here &&& allowed) (Spans text p) :=
  (Leads.stay fun i hi => (spans_forward ((h i i).mpr ⟨rfl, hi⟩)).2).congr fun i j => (h i j).symm

/-- An expression for one character goes on by one position where the character passes a test. -/
theorem leads_advance {ok : Char → Bool}
    (h : ∀ i j, Spans text p i j ↔ j = i + 1 ∧ ∃ c, text[i]? = some c ∧ ok c = true) :
    Leads text.length (fun here => (here &&& (Occurrences.ofText text).passing ok) <<< 1) (Spans text p) := by
  refine (Leads.advance fun i hi => ?_).congr fun i j => ?_
  · obtain ⟨c, hc, -⟩ := (testBit_passing_ofText text ok i).mp hi
    exact (List.getElem?_eq_some_iff.mp hc).1
  · rw [h, testBit_passing_ofText]

theorem testBit_allPositions (n i : Nat) : (allPositions n).testBit i = true ↔ i ≤ n := by
  rw [allPositions, Nat.one_shiftLeft, Nat.testBit_two_pow_sub_one, decide_eq_true_eq]
  omega

theorem testBit_one_shiftLeft (n i : Nat) : (1 <<< n).testBit i = true ↔ i = n := by
  rw [Nat.one_shiftLeft, Nat.testBit_two_pow, decide_eq_true_eq]
  exact eq_comm

theorem testBit_wordAfter (text : List Char) (i : Nat) :
    ((Occurrences.ofText text).passing Text.isWordChar).testBit i = wordAfter text i := by
  rw [Bool.eq_iff_iff, testBit_passing_ofText, wordAfter_iff]

theorem testBit_wordBefore (text : List Char) (i : Nat) :
    ((Occurrences.ofText text).passing Text.isWordChar <<< 1).testBit i = wordBefore text i := by
  rw [Nat.testBit_shiftLeft, testBit_wordAfter, wordBefore]
  rfl

/-- A repetition between two bounds takes the least number of steps and then at most as many as are left. -/
theorem leads_bounded {step : Nat → Nat} (h : Leads text.length step (Spans text p)) {least m : Nat} {greedy : Bool}
    (hle : least ≤ m) : Leads text.length
      (fun here => atMost step (m - least) (exactly step least here) (exactly step least here))
      (Spans text (.repeated p least (some m) greedy)) := by
  refine (h.counted least (m - least)).congr fun i k => ?_
  have hmem : ∀ n, (∀ m' ∈ some m, n ≤ m') ↔ n ≤ least + (m - least) := by
    simp only [Option.mem_some_iff, forall_eq']
    omega
  simp only [spans_repeated_iff, hmem]

/-- A repetition without a greatest number takes the least number of steps and then any number. -/
theorem leads_unbounded {step : Nat → Nat} (h : Leads text.length step (Spans text p)) {least : Nat}
    {greedy : Bool} : Leads text.length
      (fun here => spread (Positions.closure text.length step)
        (atMost step 0 (exactly step least here) (exactly step least here)) 0)
      (Spans text (.repeated p least none greedy)) := by
  refine ((h.counted least 0).comp h.closure).congr fun i k => ?_
  rw [spans_repeated_iff]
  constructor
  · rintro ⟨j, ⟨hi, n, hleast, -, hij⟩, -, n', hjk⟩
    exact ⟨hi, n + n', by omega, by simp, steps_add.mpr ⟨j, hij, hjk⟩⟩
  · rintro ⟨hi, n, hleast, -, hsteps⟩
    obtain ⟨n', rfl⟩ := Nat.exists_eq_add_of_le hleast
    obtain ⟨j, hij, hjk⟩ := steps_add.mp hsteps
    exact ⟨j, ⟨hi, least, Nat.le_refl _, Nat.le_refl _, hij⟩, (steps_forward spans_forward hi hij).2, n', hjk⟩

/-- An expression on a text leads from where its matches begin to where they end. -/
theorem leads_image (hp : p.Proper) :
    Leads text.length (p.on text.length (.ofText text)).image (Spans text p) := by
  induction p with
  | empty =>
    refine leads_stay fun i j => ?_
    rw [spans_empty_iff, testBit_allPositions]
  | any =>
    refine leads_advance fun i j => ?_
    simp only [spans_any_iff, decide_eq_true_eq]
  | literal c =>
    refine leads_advance fun i j => ?_
    simp only [spans_literal_iff, decide_eq_true_eq, exists_eq_right]
  | oneOf k => exact leads_advance fun i j => spans_oneOf_iff
  | start =>
    refine leads_stay fun i j => ?_
    rw [spans_start_iff, show (1 : Nat) = 1 <<< 0 from rfl, testBit_one_shiftLeft]
  | stop =>
    refine leads_stay fun i j => ?_
    rw [spans_stop_iff, testBit_one_shiftLeft]
  | wordStart =>
    refine leads_stay fun i j => ?_
    rw [spans_wordStart_iff, testBit_minus, testBit_wordAfter, testBit_wordBefore, Bool.and_eq_true, Bool.not_eq_true']
  | wordStop =>
    refine leads_stay fun i j => ?_
    rw [spans_wordStop_iff, testBit_minus, testBit_wordAfter, testBit_wordBefore, Bool.and_eq_true, Bool.not_eq_true']
  | group captures p ih => exact (ih hp).congr fun i j => spans_group_iff.symm
  | concat p q ihp ihq => exact ((ihp hp.1).comp (ihq hp.2)).congr fun i k => spans_concat_iff.symm
  | either p q ihp ihq => exact ((ihp hp.1).union (ihq hp.2)).congr fun i j => spans_either_iff.symm
  | repeated p least most greedy ih =>
    cases most with
    | some m => exact leads_bounded (ih hp.1) (hp.2 m rfl)
    | none => exact leads_unbounded (ih hp.1)

end Spans

/-- Matching finds an expression exactly if it matches some part of the text. -/
theorem matchesWithin_iff (hp : p.Proper) (s : String) :
    p.matchesWithin s = true ↔ ∃ i j, Spans s.toList p i j := by
  have himage : ∀ j, ((p.on s.toList.length (.ofText s.toList)).image (allPositions s.toList.length)).testBit j =
      true ↔ ∃ i, Spans s.toList p i j := by
    intro j
    rw [(leads_image hp).testBit_iff fun i hi => (testBit_allPositions _ i).mp hi]
    refine exists_congr fun i => and_iff_right_of_imp fun h => (testBit_allPositions _ i).mpr ?_
    have := spans_forward h
    omega
  rw [matchesWithin, decide_eq_true_eq]
  constructor
  · intro hne
    obtain ⟨j, hj⟩ := Nat.exists_testBit_of_ne_zero hne
    obtain ⟨i, hspan⟩ := (himage j).mp hj
    exact ⟨i, j, hspan⟩
  · rintro ⟨i, j, hspan⟩ hzero
    have hj := (himage j).mpr ⟨i, hspan⟩
    rw [hzero, Nat.zero_testBit] at hj
    cases hj

end RankedPlans.Pattern
