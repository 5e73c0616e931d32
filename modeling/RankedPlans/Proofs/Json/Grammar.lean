import RankedPlans.Proofs.Json.Tokens

/-! The grammar of JSON text: `Spells v text` says that some characters write the tree `v`, with white space between any
two tokens. The parser reads a tree from the texts that spell it and from no others. -/

namespace RankedPlans.Json

/-- A key between quotes, with white space around it. -/
inductive KeyText : List Piece → List Char → Prop where
  | spaced {key : List Piece} {before text after : List Char} (left : Blanks before) (pieces : PiecesText key text)
      (right : Blanks after) : KeyText key (before ++ '"' :: (text ++ '"' :: after))

mutual

/-- The characters of a value without white space around it. -/
inductive ValueText : Written → List Char → Prop where
  | null : ValueText .null ['n', 'u', 'l', 'l']
  | boolTrue : ValueText (.bool true) ['t', 'r', 'u', 'e']
  | boolFalse : ValueText (.bool false) ['f', 'a', 'l', 's', 'e']
  | number {n : Numeral} {cs : List Char} (numeral : NumeralText n cs) : ValueText (.number n) cs
  | string {ps : List Piece} {cs : List Char} (pieces : PiecesText ps cs) :
      ValueText (.string ps) ('"' :: (cs ++ ['"']))
  | emptyArray {bs : List Char} (blanks : Blanks bs) : ValueText (.array []) ('[' :: (bs ++ [']']))
  | array {vs : List Written} {cs : List Char} (items : ItemsText vs cs) :
      ValueText (.array vs) ('[' :: (cs ++ [']']))
  | emptyObject {bs : List Char} (blanks : Blanks bs) : ValueText (.object []) ('\x7b' :: (bs ++ ['\x7d']))
  | object {ms : List (List Piece × Written)} {cs : List Char} (members : MembersText ms cs) :
      ValueText (.object ms) ('\x7b' :: (cs ++ ['\x7d']))

/-- A value with white space around it. -/
inductive Spells : Written → List Char → Prop where
  | spaced {v : Written} {before text after : List Char} (left : Blanks before) (value : ValueText v text)
      (right : Blanks after) : Spells v (before ++ (text ++ after))

/-- The items of an array between its brackets, at least one. -/
inductive ItemsText : List Written → List Char → Prop where
  | last {v : Written} {cs : List Char} (value : Spells v cs) : ItemsText [v] cs
  | cons {v : Written} {vs : List Written} {cs ds : List Char} (value : Spells v cs) (rest : ItemsText vs ds) :
      ItemsText (v :: vs) (cs ++ ',' :: ds)

/-- The members of an object between its braces, at least one. -/
inductive MembersText : List (List Piece × Written) → List Char → Prop where
  | last {key : List Piece} {v : Written} {ks cs : List Char} (name : KeyText key ks) (value : Spells v cs) :
      MembersText [(key, v)] (ks ++ ':' :: cs)
  | cons {key : List Piece} {v : Written} {ms : List (List Piece × Written)} {ks cs ds : List Char}
      (name : KeyText key ks) (value : Spells v cs) (rest : MembersText ms ds) :
      MembersText ((key, v) :: ms) (ks ++ ':' :: (cs ++ ',' :: ds))

end

section Prepend

variable {bs cs : List Char} (hbs : Blanks bs)
include hbs

theorem Spells.prepend {v : Written} (h : Spells v cs) : Spells v (bs ++ cs) := by
  cases h with
  | spaced left value right =>
    rw [← List.append_assoc]
    exact .spaced (hbs.append left) value right

theorem ItemsText.prepend {vs : List Written} (h : ItemsText vs cs) : ItemsText vs (bs ++ cs) := by
  cases h with
  | last value => exact .last (value.prepend hbs)
  | cons value rest =>
    rw [← List.append_assoc]
    exact .cons (value.prepend hbs) rest

theorem KeyText.prepend {key : List Piece} (h : KeyText key cs) : KeyText key (bs ++ cs) := by
  cases h with
  | spaced left pieces right =>
    rw [← List.append_assoc]
    exact .spaced (hbs.append left) pieces right

theorem MembersText.prepend {ms : List (List Piece × Written)} (h : MembersText ms cs) : MembersText ms (bs ++ cs) := by
  cases h with
  | last name value =>
    rw [← List.append_assoc]
    exact .last (name.prepend hbs) value
  | cons name value rest =>
    rw [← List.append_assoc]
    exact .cons (name.prepend hbs) value rest

end Prepend

section Head

theorem NumeralText.head {n : Numeral} {text : List Char} (h : NumeralText n text) :
    ∃ c cs, text = c :: cs ∧ Written.isBlank c = false ∧ c ≠ ']' := by
  cases h with
  | @mk negative _ _ _ _ _ digits =>
    cases negative with
    | true => exact ⟨_, _, rfl, by decide, by decide⟩
    | false =>
      obtain ⟨d, ds, rfl⟩ := List.exists_cons_of_ne_nil digits.ne_nil
      have hd := digits.lt_ten d (by simp)
      exact ⟨_, _, rfl, Written.isBlank_digitChar hd, Written.digitChar_ne (by decide) hd⟩

theorem ValueText.head {v : Written} {text : List Char} (h : ValueText v text) :
    ∃ c cs, text = c :: cs ∧ Written.isBlank c = false ∧ c ≠ ']' := by
  cases h with
  | number numeral => exact numeral.head
  | null => exact ⟨_, _, rfl, by decide, by decide⟩
  | boolTrue => exact ⟨_, _, rfl, by decide, by decide⟩
  | boolFalse => exact ⟨_, _, rfl, by decide, by decide⟩
  | string => exact ⟨_, _, rfl, by decide, by decide⟩
  | emptyArray => exact ⟨_, _, rfl, by decide, by decide⟩
  | array => exact ⟨_, _, rfl, by decide, by decide⟩
  | emptyObject => exact ⟨_, _, rfl, by decide, by decide⟩
  | object => exact ⟨_, _, rfl, by decide, by decide⟩

theorem Spells.head {v : Written} {text : List Char} (h : Spells v text) (rest : List Char) :
    ∃ c cs, Written.skipBlanks (text ++ rest) = c :: cs ∧ c ≠ ']' := by
  cases h with
  | spaced left value =>
    obtain ⟨c, cs, rfl, hblank, hc⟩ := value.head
    rw [List.append_assoc, Written.skipBlanks_append left]
    exact ⟨c, _, Written.skipBlanks_cons hblank, hc⟩

theorem ItemsText.head {vs : List Written} {text : List Char} (h : ItemsText vs text) (rest : List Char) :
    ∃ c cs, Written.skipBlanks (text ++ rest) = c :: cs ∧ c ≠ ']' := by
  cases h with
  | last value => exact value.head rest
  | cons value =>
    rw [List.append_assoc]
    exact value.head _

theorem KeyText.head {key : List Piece} {text : List Char} (h : KeyText key text) (rest : List Char) :
    ∃ cs, Written.skipBlanks (text ++ rest) = '"' :: cs := by
  cases h with
  | spaced left =>
    rw [List.append_assoc, Written.skipBlanks_append left]
    exact ⟨_, Written.skipBlanks_cons (by decide)⟩

theorem MembersText.head {ms : List (List Piece × Written)} {text : List Char} (h : MembersText ms text)
    (rest : List Char) : ∃ cs, Written.skipBlanks (text ++ rest) = '"' :: cs := by
  cases h with
  | last name | cons name =>
    rw [List.append_assoc]
    exact name.head _

end Head

namespace Written

variable {fuel : Nat} {cs rest : List Char} {v : Written}

theorem endsNumber_blanks {bs : List Char} (hbs : Blanks bs) (hrest : EndsNumber rest) : EndsNumber (bs ++ rest) := by
  cases bs with
  | nil => exact hrest
  | cons c bs =>
    intro c' hc
    obtain rfl : c = c' := Option.some.inj hc
    have hblank := hbs c (by simp)
    simp only [isBlank, Bool.or_eq_true, decide_eq_true_eq] at hblank
    rcases hblank with ((rfl | rfl) | rfl) | rfl <;> decide

theorem skipBlanks_skipBlanks (cs : List Char) : skipBlanks (skipBlanks cs) = skipBlanks cs := by
  induction cs with
  | nil => rfl
  | cons c cs ih =>
    cases hc : isBlank c with
    | false => rw [skipBlanks_cons hc, skipBlanks_cons hc]
    | true => simpa [skipBlanks, List.dropWhile_cons, hc] using ih

theorem endsNumber_cons {c : Char} (h : digit? c = none ∧ c ≠ '.' ∧ c ≠ 'e' ∧ c ≠ 'E') :
    EndsNumber (c :: rest) := by
  rintro _ ⟨⟩
  exact h

section Sound

/-- What the parser reads with some fuel is written there. -/
structure Sound (fuel : Nat) : Prop where
  value {cs rest : List Char} {v : Written} (h : value? fuel cs = some (v, rest)) :
    ∃ bs text, Blanks bs ∧ ValueText v text ∧ cs = bs ++ (text ++ rest)
  items {cs rest : List Char} {vs : List Written} (h : items? fuel cs = some (vs, rest)) :
    ∃ text, ItemsText vs text ∧ cs = text ++ ']' :: rest
  members {cs rest : List Char} {ms : List (List Piece × Written)} (h : members? fuel cs = some (ms, rest)) :
    ∃ text, MembersText ms text ∧ cs = text ++ '\x7d' :: rest

variable (h₀ : Sound fuel)
include h₀

theorem Sound.value_succ (h : value? (fuel + 1) cs = some (v, rest)) :
    ∃ bs text, Blanks bs ∧ ValueText v text ∧ cs = bs ++ (text ++ rest) := by
  obtain ⟨bs, hbs, hcs⟩ := exists_blanks cs
  suffices hv : ∃ text, ValueText v text ∧ skipBlanks cs = text ++ rest by
    obtain ⟨text, htext, heq⟩ := hv
    exact ⟨bs, text, hbs, htext, by rw [← heq, ← hcs]⟩
  rw [value?] at h
  split at h
  case h_1 heq => cases h; exact ⟨_, .null, heq⟩
  case h_2 heq => cases h; exact ⟨_, .boolTrue, heq⟩
  case h_3 heq => cases h; exact ⟨_, .boolFalse, heq⟩
  case h_4 heq =>
    obtain ⟨⟨ps, rest'⟩, hps, h⟩ := Option.map_eq_some_iff.mp h
    cases h
    obtain ⟨text, htext, rfl⟩ := pieces?_eq_some hps
    exact ⟨_, .string htext, by simp [heq]⟩
  case h_5 after heq =>
    obtain ⟨bs', hbs', hafter⟩ := exists_blanks after
    rw [heq, hafter]
    split at h
    case h_1 hclose =>
      cases h
      exact ⟨_, .emptyArray hbs', by simp [hclose]⟩
    case h_2 =>
      obtain ⟨⟨vs, rest'⟩, hvs, h⟩ := Option.map_eq_some_iff.mp h
      cases h
      obtain ⟨text, htext, hitems⟩ := h₀.items hvs
      exact ⟨_, .array (htext.prepend hbs'), by simp [hitems]⟩
  case h_6 after heq =>
    obtain ⟨bs', hbs', hafter⟩ := exists_blanks after
    rw [heq, hafter]
    split at h
    case h_1 hclose =>
      cases h
      exact ⟨_, .emptyObject hbs', by simp [hclose]⟩
    case h_2 =>
      obtain ⟨⟨ms, rest'⟩, hms, h⟩ := Option.map_eq_some_iff.mp h
      cases h
      obtain ⟨text, htext, hmembers⟩ := h₀.members hms
      exact ⟨_, .object (htext.prepend hbs'), by simp [hmembers]⟩
  case h_7 heq =>
    obtain ⟨⟨n, rest'⟩, hn, h⟩ := Option.map_eq_some_iff.mp h
    cases h
    obtain ⟨text, htext, hcs⟩ := magnitude?_eq_some hn
    exact ⟨_, .number htext, heq.trans hcs⟩
  case h_8 =>
    obtain ⟨⟨n, rest'⟩, hn, h⟩ := Option.map_eq_some_iff.mp h
    cases h
    obtain ⟨text, htext, hcs⟩ := magnitude?_eq_some hn
    exact ⟨_, .number htext, hcs⟩

theorem Sound.items_succ {vs : List Written} (h : items? (fuel + 1) cs = some (vs, rest)) :
    ∃ text, ItemsText vs text ∧ cs = text ++ ']' :: rest := by
  rw [items?] at h
  obtain ⟨⟨v, after⟩, hv, hafter⟩ := Option.bind_eq_some_iff.mp h
  obtain ⟨bs, text, hbs, htext, rfl⟩ := h₀.value hv
  obtain ⟨bs', hbs', hblank⟩ := exists_blanks after
  have hspells : Spells v (bs ++ (text ++ bs')) := .spaced hbs htext hbs'
  rw [hblank]
  dsimp only at hafter
  split at hafter
  case h_1 hclose =>
    cases hafter
    exact ⟨_, .last hspells, by simp [hclose]⟩
  case h_2 hcomma =>
    obtain ⟨⟨vs, rest'⟩, hvs, hrest⟩ := Option.bind_eq_some_iff.mp hafter
    cases hrest
    obtain ⟨text', hitems, rfl⟩ := h₀.items hvs
    exact ⟨_, .cons hspells hitems, by simp [hcomma]⟩
  case h_3 => cases hafter

theorem Sound.members_succ {ms : List (List Piece × Written)} (h : members? (fuel + 1) cs = some (ms, rest)) :
    ∃ text, MembersText ms text ∧ cs = text ++ '\x7d' :: rest := by
  rw [members?] at h
  obtain ⟨bs, hbs, hcs⟩ := exists_blanks cs
  rw [hcs]
  split at h
  case h_1 hquote =>
    obtain ⟨⟨key, afterKey⟩, hkey, hread⟩ := Option.bind_eq_some_iff.mp h
    obtain ⟨keyText, hkeyText, rfl⟩ := pieces?_eq_some hkey
    obtain ⟨bs', hbs', hblankKey⟩ := exists_blanks afterKey
    have hname : KeyText key (bs ++ '"' :: (keyText ++ '"' :: bs')) := .spaced hbs hkeyText hbs'
    rw [hquote, hblankKey]
    dsimp only at hread
    split at hread
    case h_1 hcolon =>
      rw [hcolon]
      obtain ⟨⟨v, after⟩, hv, hafter⟩ := Option.bind_eq_some_iff.mp hread
      obtain ⟨bs'', text, hbs'', htext, rfl⟩ := h₀.value hv
      obtain ⟨bs₃, hbs₃, hblank⟩ := exists_blanks after
      have hspells : Spells v (bs'' ++ (text ++ bs₃)) := .spaced hbs'' htext hbs₃
      rw [hblank]
      dsimp only at hafter
      split at hafter
      case h_1 hclose =>
        cases hafter
        exact ⟨_, .last hname hspells, by simp [hclose]⟩
      case h_2 hcomma =>
        obtain ⟨⟨ms, rest'⟩, hms, hrest⟩ := Option.bind_eq_some_iff.mp hafter
        cases hrest
        obtain ⟨text', hmembers, rfl⟩ := h₀.members hms
        exact ⟨_, .cons hname hspells hmembers, by simp [hcomma]⟩
      case h_3 => cases hafter
    case h_2 => cases hread
  case h_2 => cases h

omit h₀ in
theorem sound (fuel : Nat) : Sound fuel := by
  -- Values, items and members read one another with one step less, so all three are shown at once.
  induction fuel with
  | zero => exact ⟨by simp [value?], by simp [items?], by simp [members?]⟩
  | succ fuel ih => exact ⟨ih.value_succ, ih.items_succ, ih.members_succ⟩

end Sound

section Complete

theorem value?_skipBlanks (fuel : Nat) (cs : List Char) : value? fuel (skipBlanks cs) = value? fuel cs := by
  cases fuel with
  | zero => rfl
  | succ fuel => simp only [value?, skipBlanks_skipBlanks]

theorem items?_skipBlanks (fuel : Nat) (cs : List Char) : items? fuel (skipBlanks cs) = items? fuel cs := by
  cases fuel with
  | zero => rfl
  | succ fuel => simp only [items?, value?_skipBlanks]

theorem members?_skipBlanks (fuel : Nat) (cs : List Char) : members? fuel (skipBlanks cs) = members? fuel cs := by
  cases fuel with
  | zero => rfl
  | succ fuel => simp only [members?, skipBlanks_skipBlanks]

theorem value?_digit {d : Nat} (hd : d < 10) : value? (fuel + 1) (Nat.digitChar d :: cs) =
    (magnitude? false (Nat.digitChar d :: cs)).map fun (n, rest) => (.number n, rest) := by
  rw [value?, skipBlanks_cons (isBlank_digitChar hd)]
  split
  case h_8 => rfl
  all_goals exact absurd (List.cons.inj ‹_ = _›).1 (digitChar_ne (by decide) hd)

theorem value?_number {n : Numeral} {text : List Char} (h : NumeralText n text) (hrest : EndsNumber rest) :
    value? (fuel + 1) (text ++ rest) = some (.number n, rest) := by
  cases h with
  | @mk negative whole _ _ _ _ digits zero fractional scaled =>
    have hread := magnitude?_append negative digits zero fractional scaled hrest
    cases negative with
    | true => simp [value?, skipBlanks_cons (c := '-') (by decide), hread]
    | false =>
      obtain ⟨d, ds, rfl⟩ := List.exists_cons_of_ne_nil digits.ne_nil
      simp only [digitChars, List.map_cons, List.cons_append, List.append_assoc, Bool.false_eq_true, if_false,
        List.nil_append] at hread ⊢
      rw [value?_digit (digits.lt_ten d (by simp)), hread]
      rfl

/-- The parser reads what is written if its fuel exceeds the number of characters. -/
structure Complete (fuel : Nat) : Prop where
  value {v : Written} {text bs rest : List Char} (h : ValueText v text) (hfuel : text.length ≤ fuel)
    (hbs : Blanks bs) (hrest : EndsNumber rest) : value? fuel (bs ++ (text ++ rest)) = some (v, rest)
  items {vs : List Written} {text : List Char} (h : ItemsText vs text) (hfuel : text.length < fuel)
    (rest : List Char) : items? fuel (text ++ ']' :: rest) = some (vs, rest)
  members {ms : List (List Piece × Written)} {text : List Char} (h : MembersText ms text)
    (hfuel : text.length < fuel) (rest : List Char) : members? fuel (text ++ '\x7d' :: rest) = some (ms, rest)

variable (h₀ : Complete fuel)
include h₀

theorem Complete.spells (h : Spells v cs) (hfuel : cs.length ≤ fuel) (rest : List Char) (hrest : EndsNumber rest) :
    ∃ bs, Blanks bs ∧ value? fuel (cs ++ rest) = some (v, bs ++ rest) := by
  cases h with
  | @spaced _ before text after left value right =>
    refine ⟨after, right, ?_⟩
    rw [List.append_assoc, List.append_assoc]
    exact h₀.value value (by simp at hfuel; omega) left (endsNumber_blanks right hrest)

theorem Complete.value_succ {text bs : List Char} (h : ValueText v text) (hfuel : text.length ≤ fuel + 1)
    (hbs : Blanks bs) (hrest : EndsNumber rest) : value? (fuel + 1) (bs ++ (text ++ rest)) = some (v, rest) := by
  rw [value?, skipBlanks_append hbs, ← value?]
  cases h with
  | null => rfl
  | boolTrue => rfl
  | boolFalse => rfl
  | number numeral => exact value?_number numeral hrest
  | string pieces => simp [value?, skipBlanks_cons, isBlank, pieces?_append pieces]
  | emptyArray blanks => simp [value?, skipBlanks_cons, isBlank, skipBlanks_append blanks]
  | array items =>
    obtain ⟨c, ds, hc, hclose⟩ := items.head (']' :: rest)
    have hread := h₀.items items (by simp at hfuel; omega) rest
    rw [← items?_skipBlanks, hc] at hread
    simp [value?, skipBlanks_cons, isBlank, hc, hclose, hread]
  | emptyObject blanks => simp [value?, skipBlanks_cons, isBlank, skipBlanks_append blanks]
  | object members =>
    obtain ⟨ds, hc⟩ := members.head ('\x7d' :: rest)
    have hread := h₀.members members (by simp at hfuel; omega) rest
    rw [← members?_skipBlanks, hc] at hread
    simp [value?, skipBlanks_cons, isBlank, hc, hread]

theorem Complete.items_succ {vs : List Written} {text : List Char} (h : ItemsText vs text)
    (hfuel : text.length < fuel + 1) (rest : List Char) :
    items? (fuel + 1) (text ++ ']' :: rest) = some (vs, rest) := by
  cases h with
  | last value =>
    obtain ⟨bs, hbs, hread⟩ := h₀.spells value (by omega) (']' :: rest) (endsNumber_cons (by decide))
    simp [items?, hread, skipBlanks_append hbs, skipBlanks_cons, isBlank]
  | @cons _ _ _ ds value items =>
    simp only [List.length_append, List.length_cons] at hfuel
    have hitems := h₀.items items (by omega) rest
    obtain ⟨bs, hbs, hread⟩ := h₀.spells value (by omega) (',' :: (ds ++ ']' :: rest)) (endsNumber_cons (by decide))
    simp [items?, hread, skipBlanks_append hbs, skipBlanks_cons, isBlank, hitems]

theorem Complete.members_succ {ms : List (List Piece × Written)} {text : List Char} (h : MembersText ms text)
    (hfuel : text.length < fuel + 1) (rest : List Char) :
    members? (fuel + 1) (text ++ '\x7d' :: rest) = some (ms, rest) := by
  cases h with
  | last name value =>
    obtain ⟨left, pieces, right⟩ := name
    simp only [List.length_append, List.length_cons] at hfuel
    obtain ⟨bs, hbs, hread⟩ := h₀.spells value (by omega) ('\x7d' :: rest) (endsNumber_cons (by decide))
    simp [members?, hread, skipBlanks_append left, skipBlanks_append right, skipBlanks_append hbs, skipBlanks_cons,
      isBlank, pieces?_append pieces]
  | @cons _ _ _ _ _ ds name value members =>
    obtain ⟨left, pieces, right⟩ := name
    simp only [List.length_append, List.length_cons] at hfuel
    have hmembers := h₀.members members (by omega) rest
    obtain ⟨bs, hbs, hread⟩ := h₀.spells value (by omega) (',' :: (ds ++ '\x7d' :: rest)) (endsNumber_cons (by decide))
    simp [members?, hread, skipBlanks_append left, skipBlanks_append right, skipBlanks_append hbs, skipBlanks_cons,
      isBlank, pieces?_append pieces, hmembers]

omit h₀ in
theorem complete (fuel : Nat) : Complete fuel := by
  induction fuel with
  | zero =>
    refine ⟨fun h hfuel _ _ => ?_, fun _ hfuel => absurd hfuel (Nat.not_lt_zero _),
      fun _ hfuel => absurd hfuel (Nat.not_lt_zero _)⟩
    obtain ⟨c, cs, rfl, -⟩ := h.head
    cases hfuel
  | succ fuel ih => exact ⟨ih.value_succ, ih.items_succ, ih.members_succ⟩

end Complete

/-- The tree at the front of a text that spells it, with nothing but white space after it. -/
theorem leading?_of_spells (h : Spells v cs) : ∃ bs, Blanks bs ∧ leading? cs = some (v, bs) := by
  obtain ⟨bs, hbs, hread⟩ := (complete _).spells h (Nat.le_succ _) [] (by simp [EndsNumber])
  rw [List.append_nil, List.append_nil] at hread
  exact ⟨bs, hbs, hread⟩

/-- A tree is read from the texts that spell it and from no others. -/
theorem ofChars?_eq_some_iff : ofChars? cs = some v ↔ Spells v cs := by
  refine ⟨fun h => ?_, fun h => ?_⟩
  · obtain ⟨⟨w, rest⟩, hread, hrest⟩ := Option.bind_eq_some_iff.mp h
    obtain ⟨bs, text, hbs, htext, rfl⟩ := (sound _).value hread
    dsimp only at hrest
    split at hrest
    · rename_i hblank
      cases hrest
      exact .spaced hbs htext (onlyBlanks_iff.mp hblank)
    · cases hrest
  · obtain ⟨bs, hbs, hread⟩ := leading?_of_spells h
    simp [ofChars?, hread, onlyBlanks_iff.mpr hbs]

theorem parse?_eq_some_iff {text : String} : parse? text = some v ↔ Spells v text.toList :=
  ofChars?_eq_some_iff

end Written

end RankedPlans.Json
