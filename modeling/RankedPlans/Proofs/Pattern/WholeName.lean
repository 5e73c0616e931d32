import RankedPlans.Enumeration.Request
import RankedPlans.Plan.Key
import RankedPlans.Proofs.Pattern.Reader

/-! Patterns for whole names. A text that writes an expression by itself marks the names that the expression
matches from their first to their last character. A text whose parentheses close the group between the anchors
may put a bar outside of it; then parts of names are matched as well. -/

namespace RankedPlans

namespace Pattern

variable {name : List Char} {p q : Pattern} {ps : List Pattern} {i j k : Nat} {fuel : Nat} {cs : List Char}

section Spans

theorem spans_inRow_cons :
    Spans name (inRow (p :: ps)) i k ↔ ∃ j, Spans name p i j ∧ Spans name (inRow ps) j k := by
  cases ps with
  | nil =>
    constructor
    · exact fun h => ⟨k, h, .empty (spans_forward h).2⟩
    · rintro ⟨j, h, hrest⟩
      cases hrest with
      | empty => exact h
  | cons q ps => exact spans_concat_iff

theorem spans_inRow_concat_stop (h : Spans name (inRow (ps ++ [stop])) i j) : j = name.length := by
  induction ps generalizing i with
  | nil => cases h with | stop => rfl
  | cons p ps ih =>
    obtain ⟨m, -, hrest⟩ := spans_inRow_cons.mp h
    exact ih hrest

/-- Expressions in a row from the start to the end of the text match the whole text only. -/
theorem spans_anchored (h : Spans name (inRow (start :: (ps ++ [stop]))) i j) : i = 0 ∧ j = name.length := by
  obtain ⟨m, hstart, hrest⟩ := spans_inRow_cons.mp h
  cases hstart with
  | start => exact ⟨rfl, spans_inRow_concat_stop hrest⟩

/-- An expression in a group between the anchors. -/
def between (q : Pattern) : Pattern :=
  inRow [start, group false q, stop]

theorem spans_between_iff : Spans name (between q) 0 name.length ↔ Spans name q 0 name.length := by
  simp only [between, spans_inRow_cons]
  constructor
  · rintro ⟨_, hstart, _, hgroup, _, hstop, hempty⟩
    cases hstart
    cases hstop
    cases hgroup with
    | group h => exact h
  · exact fun h => ⟨0, .start, _, .group h, _, .stop, .empty (Nat.le_refl _)⟩

end Spans

section Reading

/-- The text for whole names. -/
def wrapped (text : List Char) : List Char :=
  '^' :: '(' :: '?' :: ':' :: (text ++ ending)

theorem toList_wrapped (text : String) : ("^(?:" ++ text ++ ")$").toList = wrapped text.toList := by
  simp [String.toList_append, wrapped, ending]

/-- Reading goes on from the sign for the start to the group. -/
theorem sequence?_wrapped {text rest : List Char} :
    sequence? (fuel + 2) (wrapped text) = some (ps, rest) ↔
      ∃ qs, sequence? (fuel + 1) ('(' :: '?' :: ':' :: (text ++ ending)) = some (qs, rest) ∧ ps = start :: qs := by
  have hends : ¬endsRow (wrapped text) := by simp [endsRow, wrapped]
  have hatom : atom? (fuel + 1) (wrapped text) = some (start, '(' :: '?' :: ':' :: (text ++ ending)) := rfl
  have hrep : repetitions (fuel + 2) start ('(' :: '?' :: ':' :: (text ++ ending)) =
      some (start, '(' :: '?' :: ':' :: (text ++ ending)) := rfl
  rw [sequence?_succ]
  constructor
  · rintro (⟨h, -⟩ | ⟨-, p, cs', q, cs'', qs, hp, hq, hqs, rfl⟩)
    · exact absurd h hends
    · cases hatom.symm.trans hp
      cases hrep.symm.trans hq
      exact ⟨qs, hqs, rfl⟩
  · rintro ⟨qs, hqs, rfl⟩
    exact .inr ⟨hends, _, _, _, _, qs, hatom, hrep, hqs, rfl⟩

/-- A text that writes an expression by itself writes the same one in the group. -/
theorem parse?_wrapped {text : String} (h : parse? text = some q) :
    parse? ("^(?:" ++ text ++ ")$") = some (between q) := by
  have hfuel : ∃ fuel, 4 * (wrapped text.toList).length + 4 = fuel + 8 ∧ fuel ≥ 4 * text.toList.length + 4 :=
    ⟨4 * text.toList.length + 20, by simp [wrapped, ending]; omega, by omega⟩
  obtain ⟨fuel, hfuel, hmore⟩ := hfuel
  have hbody : alternatives? (fuel + 3) (text.toList ++ ending) = some (q, ')' :: ['$']) :=
    ((settled _).alternatives (parse?_eq_some_iff.mp h)).2.2 _ (by omega)
  have hgroup : atom? (fuel + 5) ('(' :: '?' :: ':' :: (text.toList ++ ending)) = some (group false q, ['$']) :=
    atom?_succ.mpr (.plain (group?_succ.mpr ⟨q, hbody, rfl⟩))
  have hrow : sequence? (fuel + 6) ('(' :: '?' :: ':' :: (text.toList ++ ending)) = some ([group false q, stop], []) :=
    sequence?_succ.mpr (.inr ⟨by simp [endsRow], _, _, _, _, _, hgroup, rfl, rfl, rfl⟩)
  rw [parse?_eq_some_iff, toList_wrapped, hfuel]
  exact alternatives?_succ.mpr ⟨_, [], sequence?_wrapped.mpr ⟨_, hrow, rfl⟩, .inl ⟨by simp, rfl, rfl⟩⟩

/-- A row of expressions that is read up to a sign for the end, with no backslash before it, ends with the end. -/
theorem sequence?_concat_stop (hplain : ¬['\\'] <:+ cs) (h : sequence? fuel (cs ++ ['$']) = some (ps, [])) :
    ∃ qs, ps = qs ++ [stop] := by
  induction fuel generalizing cs ps with
  | zero => cases h
  | succ fuel ih =>
    rcases sequence?_succ.mp h with ⟨-, -, heq⟩ | ⟨-, p, cs', q, cs'', qs, hatom, hrep, hseq, rfl⟩
    · simp at heq
    obtain ⟨hp, ⟨used, heq, htext⟩, -⟩ := (settled _).atom hatom
    have hused := (repetitions_settled hp hrep).2.1
    have hsuffix : cs'' <:+ cs ++ ['$'] := by
      rw [heq]
      rcases hused with ⟨rfl, -⟩ | ⟨used', last, rfl, -⟩
      · exact List.suffix_append _ _
      · exact ⟨used ++ used' ++ [last], by simp⟩
    rcases List.suffix_concat_iff.mp hsuffix with rfl | ⟨after, rfl, hafter⟩
    · -- nothing is left, so that the expression just read ends with the sign
      obtain rfl : qs = [] := by
        cases fuel with
        | zero => cases hseq
        | succ fuel => cases hseq; rfl
      rcases hused with ⟨rfl, rfl⟩ | ⟨used', last, rfl, hlast⟩
      · rw [List.append_nil] at heq
        cases htext with
        | stop => exact ⟨[], rfl⟩
        | escaped =>
          have heq : cs ++ ['$'] = ['\\'] ++ ['$'] := heq
          exact absurd ⟨[], (List.append_inj' heq rfl).1.symm⟩ hplain
        | other hlast => exact absurd (List.append_inj' heq rfl).2 (by simpa using hlast.symm)
      · rw [← List.append_assoc] at heq
        exact absurd (List.append_inj' heq rfl).2 (by simpa using hlast.symm)
    · obtain ⟨qs', rfl⟩ := ih (fun h => hplain (h.trans hafter)) hseq
      exact ⟨q :: qs', rfl⟩

/-- What any text writes between the anchors: a choice if a bar stands outside of the group, and otherwise a row of
expressions from the start to the end. -/
theorem parse?_wrapped_cases {text : String} (h : parse? ("^(?:" ++ text ++ ")$") = some p) :
    (∃ first second, p = either first second) ∨ ∃ ps, p = inRow (start :: (ps ++ [stop])) := by
  rw [parse?_eq_some_iff, toList_wrapped] at h
  obtain ⟨ps, cs', hseq, ⟨-, rfl, rfl⟩ | ⟨-, q, -, -, rfl⟩⟩ := alternatives?_succ.mp h
  · obtain ⟨qs, hqs, rfl⟩ := sequence?_wrapped.mp hseq
    have hplain : ¬['\\'] <:+ ('(' :: '?' :: ':' :: text.toList) ++ [')'] := fun hsuffix => by
      obtain ⟨before, hbefore⟩ := hsuffix
      exact absurd (List.append_inj' hbefore rfl).2 (by decide)
    obtain ⟨qs', rfl⟩ := sequence?_concat_stop hplain (by simpa [ending] using hqs)
    exact .inr ⟨qs', rfl⟩
  · exact .inl ⟨_, q, rfl⟩

end Reading

/-- Without a bar outside of the group a match is one of the whole name. -/
theorem matchesWithin_wrapped_iff {text name : String} (h : parse? ("^(?:" ++ text ++ ")$") = some p)
    (hrow : ∀ first second, p ≠ either first second) :
    p.matchesWithin name = true ↔ Spans name.toList p 0 name.toList.length := by
  rw [matchesWithin_iff (proper_of_parse? h)]
  constructor
  · rintro ⟨i, j, hspans⟩
    rcases parse?_wrapped_cases h with ⟨first, second, heq⟩ | ⟨ps, rfl⟩
    · exact absurd heq (hrow first second)
    · obtain ⟨rfl, rfl⟩ := spans_anchored hspans
      exact hspans
  · exact fun hspans => ⟨_, _, hspans⟩

end Pattern

namespace Request

open Pattern (Spans between either wholeName? parse?_wrapped matchesWithin_wrapped_iff spans_between_iff)

variable {r : Request} {p : Pattern}

theorem preserved_of_check (h : r.check = .ok (some p)) :
    ∃ text, r.preserved = some text ∧ wholeName? text = some p := by
  unfold check at h
  dsimp only at h
  split at h
  · cases h
  split at h
  · cases h
  simp only at h
  split at h
  on_goal 1 => split at h
  · cases h
  -- the quality factor is sound or absent
  all_goals
    split at h
    · cases h
    · split at h
      · rename_i hpreserved _ q hq
        cases h
        exact ⟨_, hpreserved, hq⟩
      · cases h

/-- How a sound request with a pattern marks the operators of a task: those whose names the compiled expression
matches somewhere. Unless a bar of the text stands outside of the group between the anchors, these are the operators
whose whole names it matches, and if the text writes an expression by itself, those whose whole names that expression
matches. -/
theorem marked_of_check (h : r.check = .ok (some p)) (t : Task) : ∃ text marked, r.preserved = some text ∧
    PlanKey.ofTask t r.unordered (some p) = (if r.unordered then .unordered else .preserving marked) ∧
    marked.size = t.operators.size ∧ ∀ (op : Nat) (o : Operator), t.operators[op]? = some o →
      (marked[op]? = some true ↔ ∃ i j, Spans o.name.toList p i j) ∧
      ((∀ first second, p ≠ either first second) →
        (marked[op]? = some true ↔ Spans o.name.toList p 0 o.name.toList.length)) ∧
      ∀ q, Pattern.parse? text = some q → p = between q ∧
        (marked[op]? = some true ↔ Spans o.name.toList q 0 o.name.toList.length) := by
  obtain ⟨text, htext, hwhole⟩ := preserved_of_check h
  have hparse := (Option.filter_eq_some_iff.mp hwhole).1
  refine ⟨text, t.operators.map fun o => p.matchesWithin o.name, htext, by rw [PlanKey.ofTask],
    Array.size_map, fun op o ho => ?_⟩
  have hmark : (t.operators.map fun o => p.matchesWithin o.name)[op]? = some true ↔
      p.matchesWithin o.name = true := by
    simp [ho]
  rw [hmark]
  refine ⟨Pattern.matchesWithin_iff (Pattern.proper_of_parse? hparse) _, matchesWithin_wrapped_iff hparse,
    fun q hq => ?_⟩
  obtain rfl : between q = p := Option.some.inj ((parse?_wrapped hq).symm.trans hparse)
  rw [matchesWithin_wrapped_iff hparse nofun, spans_between_iff]
  exact ⟨rfl, Iff.rfl⟩

/-- A lamp and operators named by letters. -/
def letters : Task where
  vars := #[⟨"lamp", ["off", "on"]⟩]
  operators := #[⟨"ax", 1, [], [⟨0, 1⟩]⟩, ⟨"b", 1, [], [⟨0, 1⟩]⟩]
  initial := #[0]
  goal := [⟨0, 1⟩]
  normalized := by decide +kernel
  faultless := by decide +kernel

/-- One of two letters. -/
def oneLetter : Request where
  count := some 3
  preserved := some "a|b"

/-- The same text but for parentheses that close the group between the anchors and open another one. -/
def closedGroup : Request where
  count := some 3
  preserved := some "a)|(b"

theorem check_oneLetter : oneLetter.check = .ok (some (between (either (.literal 'a') (.literal 'b')))) := by
  have hwhole : wholeName? "a|b" = some (between (either (.literal 'a') (.literal 'b'))) := by decide +kernel
  simp only [check, oneLetter, Option.isNone_some, Bool.false_and]
  rw [hwhole]
  rfl

theorem check_closedGroup : closedGroup.check = .ok (some (either (.concat .start (.group false (.literal 'a')))
    (.concat (.group true (.literal 'b')) .stop))) := by
  have hwhole : wholeName? "a)|(b" = some (either (.concat .start (.group false (.literal 'a')))
      (.concat (.group true (.literal 'b')) .stop)) := by decide +kernel
  simp only [check, closedGroup, Option.isNone_some, Bool.false_and]
  rw [hwhole]
  rfl

theorem marked_oneLetter : ∃ p marked, oneLetter.check = .ok (some p) ∧
    PlanKey.ofTask letters false (some p) = .preserving marked ∧
    (marked[0]? = some true ↔ Spans "ax".toList (either (.literal 'a') (.literal 'b')) 0 2) ∧
    (marked[1]? = some true ↔ Spans "b".toList (either (.literal 'a') (.literal 'b')) 0 1) := by
  obtain ⟨text, marked, htext, hkey, -, hnames⟩ := marked_of_check check_oneLetter letters
  cases htext
  have hparse : Pattern.parse? "a|b" = some (either (.literal 'a') (.literal 'b')) := by decide +kernel
  exact ⟨_, marked, check_oneLetter, hkey, ((hnames 0 _ rfl).2.2 _ hparse).2, ((hnames 1 _ rfl).2.2 _ hparse).2⟩

/-- The bar stands outside of the group, so that the first option is not tied to the end of the name. -/
theorem marked_closedGroup : ∃ p marked, closedGroup.check = .ok (some p) ∧
    PlanKey.ofTask letters false (some p) = .preserving marked ∧
    (letters.operator 0).name = "ax" ∧ marked[0]? = some true ∧ ¬Spans "ax".toList p 0 2 := by
  refine ⟨_, #[true, true], check_closedGroup, by decide +kernel, rfl, rfl, fun h => ?_⟩
  cases h with
  | left h =>
    cases h with
    | concat hstart hgroup =>
      cases hstart
      cases hgroup with
      | group h => cases h
  | right h =>
    cases h with
    | concat hgroup hstop =>
      cases hgroup with
      | group h =>
        cases h with
        | literal hb => exact absurd hb (by decide)

end Request

end RankedPlans
