import RankedPlans.Json.Written

/-! The tokens of JSON text: white space, number literals and strings. `NumeralText` and `PiecesText` say which
characters write a literal or the inside of a string, and the readers find exactly these. -/

namespace RankedPlans.Json

/-- White space between tokens. -/
def Blanks (cs : List Char) : Prop :=
  ∀ c ∈ cs, Written.isBlank c = true

theorem Blanks.nil : Blanks [] :=
  nofun

theorem Blanks.append {bs bs' : List Char} (h : Blanks bs) (h' : Blanks bs') : Blanks (bs ++ bs') :=
  fun c hc => (List.mem_append.mp hc).elim (h c) (h' c)

/-- The characters of decimal digits. -/
def digitChars (ds : List Nat) : List Char :=
  ds.map Nat.digitChar

/-- Decimal digits, at least one. -/
structure IsDigits (ds : List Nat) : Prop where
  lt_ten : ∀ d ∈ ds, d < 10
  ne_nil : ds ≠ []

/-- The digits after a point, if there is one. -/
inductive FractionText : List Nat → List Char → Prop where
  | none : FractionText [] []
  | some {ds : List Nat} (digits : IsDigits ds) : FractionText ds ('.' :: digitChars ds)

/-- The sign of an exponent. -/
inductive SignText : Bool → List Char → Prop where
  | none : SignText false []
  | plus : SignText false ['+']
  | minus : SignText true ['-']

/-- An exponent, if there is one. -/
inductive ExponentText : Option (Bool × List Nat) → List Char → Prop where
  | none : ExponentText none []
  | some {e : Char} {minus : Bool} {sign : List Char} {ds : List Nat} (letter : e = 'e' ∨ e = 'E')
      (signed : SignText minus sign) (digits : IsDigits ds) :
      ExponentText (some (minus, ds)) (e :: (sign ++ digitChars ds))

/-- The characters of a number literal. Its whole part starts with a zero only if it is one. -/
inductive NumeralText : Numeral → List Char → Prop where
  | mk {negative : Bool} {whole fraction : List Nat} {exponent : Option (Bool × List Nat)}
      {point power : List Char} (digits : IsDigits whole) (zero : whole.head? = some 0 → whole = [0])
      (fractional : FractionText fraction point) (scaled : ExponentText exponent power) :
      NumeralText ⟨negative, whole, fraction, exponent⟩
        ((if negative then ['-'] else []) ++ digitChars whole ++ point ++ power)

/-- The letters after a backslash that stand for one character each. -/
def escapes : List (Char × Char) :=
  [('"', '"'), ('\\', '\\'), ('/', '/'), ('b', '\x08'), ('f', '\x0c'), ('n', '\n'), ('r', '\r'), ('t', '\t')]

/-- The characters between the quotes of a string. -/
inductive PiecesText : List Piece → List Char → Prop where
  | nil : PiecesText [] []
  | plain {c : Char} {ps : List Piece} {cs : List Char} (printable : 0x20 ≤ c.toNat) (quote : c ≠ '"')
      (backslash : c ≠ '\\') (rest : PiecesText ps cs) : PiecesText (.char c :: ps) (c :: cs)
  | escape {e c : Char} {ps : List Piece} {cs : List Char} (letter : (e, c) ∈ escapes)
      (rest : PiecesText ps cs) : PiecesText (.char c :: ps) ('\\' :: e :: cs)
  | unit {a b c d : Char} {x y z w : Nat} {ps : List Piece} {cs : List Char}
      (first : Written.hexDigit? a = some x) (second : Written.hexDigit? b = some y)
      (third : Written.hexDigit? c = some z) (fourth : Written.hexDigit? d = some w)
      (rest : PiecesText ps cs) :
      PiecesText (.unit (x * 4096 + y * 256 + z * 16 + w) :: ps) ('\\' :: 'u' :: a :: b :: c :: d :: cs)

namespace Written

variable {cs bs rest : List Char} {ds : List Nat} {c : Char}

section Blanks

theorem skipBlanks_append (h : Blanks bs) (cs : List Char) : skipBlanks (bs ++ cs) = skipBlanks cs :=
  List.dropWhile_append_of_pos h

theorem skipBlanks_cons (h : isBlank c = false) : skipBlanks (c :: cs) = c :: cs :=
  List.dropWhile_cons_of_neg (by simp [h])

theorem exists_blanks (cs : List Char) : ∃ bs, Blanks bs ∧ cs = bs ++ skipBlanks cs :=
  ⟨cs.takeWhile isBlank, List.all_eq_true.mp List.all_takeWhile, List.takeWhile_append_dropWhile.symm⟩

theorem onlyBlanks_iff : onlyBlanks cs = true ↔ Blanks cs := by
  rw [onlyBlanks, List.isEmpty_iff]
  refine ⟨fun h => ?_, fun h => ?_⟩
  · obtain ⟨bs, hbs, hcs⟩ := exists_blanks cs
    rw [h, List.append_nil] at hcs
    rwa [hcs]
  · rw [← List.append_nil cs, skipBlanks_append h]
    rfl

end Blanks

section Numbers

theorem digit?_digitChar {d : Nat} (h : d < 10) : digit? (Nat.digitChar d) = some d := by
  decide +revert

theorem digitChar_of_digit? {d : Nat} (h : digit? c = some d) : d < 10 ∧ c = Nat.digitChar d := by
  unfold digit? at h
  split at h
  · rename_i hc
    have hlow : 48 ≤ c.toNat := hc.1
    have hhigh : c.toNat ≤ 57 := hc.2
    have hd : c.toNat - 48 = d := Option.some.inj h
    refine ⟨by omega, Char.toNat_inj.mp ?_⟩
    rw [Nat.toNat_digitChar_of_lt_ten (by omega)]
    omega
  · cases h

theorem digitChar_ne {d : Nat} (hc : digit? c = none) (h : d < 10) : Nat.digitChar d ≠ c := by
  rintro rfl
  rw [digit?_digitChar h] at hc
  cases hc

theorem isBlank_digitChar {d : Nat} (hd : d < 10) : isBlank (Nat.digitChar d) = false := by
  have hne {c : Char} (hc : digit? c = none) : Nat.digitChar d ≠ c := digitChar_ne hc hd
  simp [isBlank, hne (c := ' ') (by decide), hne (c := '\t') (by decide), hne (c := '\n') (by decide),
    hne (c := '\r') (by decide)]

/-- No digit follows. -/
def NoDigit (cs : List Char) : Prop :=
  ∀ c ∈ cs.head?, digit? c = none

/-- The run of digits at the front is the longest one. -/
theorem digits_eq_iff :
    digits cs = (ds, rest) ↔ (∀ d ∈ ds, d < 10) ∧ cs = digitChars ds ++ rest ∧ NoDigit rest := by
  induction cs generalizing ds with
  | nil =>
    rw [digits, Prod.mk.injEq]
    constructor
    · rintro ⟨rfl, rfl⟩
      simp [digitChars, NoDigit]
    · rintro ⟨-, h, -⟩
      obtain ⟨hds, rfl⟩ := List.append_eq_nil_iff.mp h.symm
      exact ⟨(List.map_eq_nil_iff.mp hds).symm, rfl⟩
  | cons c cs ih =>
    rw [digits]
    cases hc : digit? c with
    | none =>
      refine ⟨fun h => ?_, fun ⟨hds, hcs, hrest⟩ => ?_⟩
      · obtain ⟨rfl, rfl⟩ := Prod.mk.inj h
        simp [digitChars, NoDigit, hc]
      · cases ds with
        | nil => exact congrArg (Prod.mk []) hcs
        | cons d ds =>
          obtain ⟨rfl, -⟩ := List.cons.inj hcs
          rw [digit?_digitChar (hds d (by simp))] at hc
          cases hc
    | some d =>
      obtain ⟨hd, rfl⟩ := digitChar_of_digit? hc
      refine ⟨fun h => ?_, fun ⟨hds, hcs, hrest⟩ => ?_⟩
      · obtain ⟨rfl, hrest⟩ := Prod.mk.inj h
        obtain ⟨hds, hcs, hno⟩ := ih.mp (Prod.ext rfl hrest)
        exact ⟨List.forall_mem_cons.mpr ⟨hd, hds⟩, congrArg (List.cons _) hcs, hno⟩
      · cases ds with
        | nil =>
          rw [digitChars, List.map_nil, List.nil_append] at hcs
          subst hcs
          exact absurd hc (by simp [hrest _ rfl])
        | cons e ds =>
          obtain ⟨hde, hcs⟩ := List.cons.inj hcs
          obtain ⟨he, hds⟩ := List.forall_mem_cons.mp hds
          rw [hde, digit?_digitChar he] at hc
          have htail := ih.mpr ⟨hds, hcs, hrest⟩
          rw [Prod.mk.injEq]
          simp [htail, Option.some.inj hc]

theorem digits?_eq_some (h : digits? cs = some (ds, rest)) : IsDigits ds ∧ cs = digitChars ds ++ rest := by
  unfold digits? at h
  split at h
  · cases h
  · rename_i hne
    obtain ⟨hlt, hcs, -⟩ := digits_eq_iff.mp (Option.some.inj h)
    exact ⟨⟨hlt, fun hds => hne rest (by rw [Option.some.inj h, hds])⟩, hcs⟩

theorem digits?_append (h : IsDigits ds) (hrest : NoDigit rest) :
    digits? (digitChars ds ++ rest) = some (ds, rest) := by
  have hds := digits_eq_iff.mpr ⟨h.lt_ten, rfl, hrest⟩
  unfold digits?
  split
  · rename_i heq
    rw [hds] at heq
    exact absurd (congrArg Prod.fst heq) h.ne_nil
  · rw [hds]

theorem whole?_eq_some (h : whole? cs = some (ds, rest)) :
    IsDigits ds ∧ (ds.head? = some 0 → ds = [0]) ∧ cs = digitChars ds ++ rest := by
  unfold whole? at h
  split at h
  · cases h
  · cases h
  · rename_i hne hzero
    obtain ⟨hlt, hcs, -⟩ := digits_eq_iff.mp (Option.some.inj h)
    rw [Option.some.inj h] at hne hzero
    refine ⟨⟨hlt, fun hds => hne rest (by rw [hds])⟩, fun hhead => ?_, hcs⟩
    match ds, hhead with
    | [0], _ => rfl
    | 0 :: d :: ds, _ => exact absurd rfl (hzero d ds rest)

theorem whole?_append (h : IsDigits ds) (hzero : ds.head? = some 0 → ds = [0]) (hrest : NoDigit rest) :
    whole? (digitChars ds ++ rest) = some (ds, rest) := by
  have hds := digits_eq_iff.mpr ⟨h.lt_ten, rfl, hrest⟩
  unfold whole?
  rw [hds]
  split
  · rename_i heq
    exact absurd (congrArg Prod.fst heq) h.ne_nil
  · rename_i heq
    obtain ⟨rfl, -⟩ := Prod.mk.inj heq
    exact absurd (hzero rfl) (by simp)
  · rfl

theorem fraction?_eq_some (h : fraction? cs = some (ds, rest)) :
    ∃ point, FractionText ds point ∧ cs = point ++ rest := by
  unfold fraction? at h
  split at h
  · obtain ⟨hds, rfl⟩ := digits?_eq_some h
    exact ⟨_, .some hds, rfl⟩
  · obtain ⟨rfl, rfl⟩ := Prod.mk.inj (Option.some.inj h)
    exact ⟨[], .none, rfl⟩

theorem fraction?_append {point : List Char} (h : FractionText ds point) (hrest : NoDigit rest)
    (hpoint : rest.head? ≠ some '.') : fraction? (point ++ rest) = some (ds, rest) := by
  cases h with
  | none =>
    rw [List.nil_append]
    unfold fraction?
    split
    · exact absurd rfl hpoint
    · rfl
  | some hds => exact digits?_append hds hrest

theorem exponent?_eq_some {e : Option (Bool × List Nat)} (h : exponent? cs = some (e, rest)) :
    ∃ power, ExponentText e power ∧ cs = power ++ rest := by
  unfold exponent? at h
  split at h
  · rename_i c cs
    split at h
    · rename_i letter
      split at h
      rename_i minus after hafter
      have hsign : ∃ sign, SignText minus sign ∧ cs = sign ++ after := by
        split at hafter
        · cases hafter
          exact ⟨_, .minus, rfl⟩
        · cases hafter
          exact ⟨_, .plus, rfl⟩
        · cases hafter
          exact ⟨_, .none, rfl⟩
      obtain ⟨sign, hsign, rfl⟩ := hsign
      obtain ⟨⟨ds, rest'⟩, hread, heq⟩ := Option.map_eq_some_iff.mp h
      obtain ⟨rfl, rfl⟩ := Prod.mk.inj heq
      obtain ⟨hds, rfl⟩ := digits?_eq_some hread
      exact ⟨_, .some letter hsign hds, by simp⟩
    · obtain ⟨rfl, rfl⟩ := Prod.mk.inj (Option.some.inj h)
      exact ⟨[], .none, rfl⟩
  · obtain ⟨rfl, rfl⟩ := Prod.mk.inj (Option.some.inj h)
    exact ⟨[], .none, rfl⟩

theorem exponent?_append {e : Option (Bool × List Nat)} {power : List Char} (h : ExponentText e power)
    (hrest : NoDigit rest) (hletter : ∀ c ∈ rest.head?, c ≠ 'e' ∧ c ≠ 'E') :
    exponent? (power ++ rest) = some (e, rest) := by
  cases h with
  | none =>
    cases rest with
    | nil => rfl
    | cons c rest => simp [exponent?, hletter c rfl]
  | some hc hsign hds =>
    obtain ⟨d, ds, rfl⟩ := List.exists_cons_of_ne_nil hds.ne_nil
    have hread := digits?_append hds hrest
    cases hsign with
    | none =>
      have hd : d < 10 := hds.lt_ten d (by simp)
      have hplus : Nat.digitChar d ≠ '+' := digitChar_ne (by decide) hd
      have hminus : Nat.digitChar d ≠ '-' := digitChar_ne (by decide) hd
      simp only [digitChars, List.map_cons, List.cons_append, List.nil_append] at hread ⊢
      simp [exponent?, hc, hplus, hminus, hread]
    | plus => simp [exponent?, hc, hread]
    | minus => simp [exponent?, hc, hread]

theorem noDigit_append_fraction {point : List Char} (h : FractionText ds point) (hrest : NoDigit rest) :
    NoDigit (point ++ rest) := by
  cases h with
  | none => exact hrest
  | some => exact fun c hc => Option.some.inj hc ▸ rfl

theorem head?_append_exponent {e : Option (Bool × List Nat)} {power : List Char} (h : ExponentText e power) :
    (power ++ rest).head? = rest.head? ∨ (power ++ rest).head? = some 'e' ∨ (power ++ rest).head? = some 'E' := by
  cases h with
  | none => exact .inl rfl
  | some letter => exact .inr (letter.imp (congrArg some) (congrArg some))

/-- What may follow a number: nothing that would continue it. -/
def EndsNumber (cs : List Char) : Prop :=
  ∀ c ∈ cs.head?, digit? c = none ∧ c ≠ '.' ∧ c ≠ 'e' ∧ c ≠ 'E'

theorem magnitude?_eq_some {negative : Bool} {n : Numeral} (h : magnitude? negative cs = some (n, rest)) :
    ∃ text, NumeralText n text ∧ (if negative then ['-'] else []) ++ cs = text ++ rest := by
  obtain ⟨⟨whole, cs₁⟩, hwhole, h⟩ := Option.bind_eq_some_iff.mp h
  obtain ⟨⟨fraction, cs₂⟩, hfraction, h⟩ := Option.bind_eq_some_iff.mp h
  obtain ⟨⟨exponent, cs₃⟩, hexponent, h⟩ := Option.bind_eq_some_iff.mp h
  obtain ⟨rfl, rfl⟩ := Prod.mk.inj (Option.some.inj h)
  obtain ⟨hdigits, hzero, rfl⟩ := whole?_eq_some hwhole
  obtain ⟨point, hpoint, rfl⟩ := fraction?_eq_some hfraction
  obtain ⟨power, hpower, rfl⟩ := exponent?_eq_some hexponent
  exact ⟨_, .mk hdigits hzero hpoint hpower, by simp⟩

theorem magnitude?_append (negative : Bool) {whole fraction : List Nat} {exponent : Option (Bool × List Nat)}
    {point power : List Char} (digits : IsDigits whole) (zero : whole.head? = some 0 → whole = [0])
    (fractional : FractionText fraction point) (scaled : ExponentText exponent power) (hrest : EndsNumber rest) :
    magnitude? negative (digitChars whole ++ (point ++ (power ++ rest))) =
      some (⟨negative, whole, fraction, exponent⟩, rest) := by
  have hno : NoDigit rest := fun c hc => (hrest c hc).1
  have hletter : (power ++ rest).head? = rest.head? ∨ _ := head?_append_exponent scaled
  have hpower : NoDigit (power ++ rest) := by
    intro c hc
    rcases hletter with h | h | h <;> rw [h] at hc
    · exact hno c hc
    · exact Option.some.inj hc ▸ rfl
    · exact Option.some.inj hc ▸ rfl
  have hpoint : (power ++ rest).head? ≠ some '.' := by
    rcases hletter with h | h | h <;> rw [h]
    · exact fun hc => (hrest '.' hc).2.1 rfl
    · decide
    · decide
  have hexponent := exponent?_append scaled hno fun c hc => (hrest c hc).2.2
  simp only [magnitude?, whole?_append digits zero (noDigit_append_fraction fractional hpower),
    fraction?_append fractional hpower hpoint, hexponent, Option.bind_eq_bind, Option.bind_some]
  rfl

end Numbers

section Strings

theorem pieces?_eq_some {ps : List Piece} (h : pieces? cs = some (ps, rest)) :
    ∃ text, PiecesText ps text ∧ cs = text ++ '"' :: rest := by
  -- An escape takes more than one character, so the induction is on the length of the text.
  induction hn : cs.length using Nat.strongRecOn generalizing cs ps with
  | ind n ih =>
    subst hn
    unfold pieces? at h
    split at h
    · cases h
    · obtain ⟨rfl, rfl⟩ := Prod.mk.inj (Option.some.inj h)
      exact ⟨[], .nil, rfl⟩
    · obtain ⟨x, hx, h⟩ := Option.bind_eq_some_iff.mp h
      obtain ⟨y, hy, h⟩ := Option.bind_eq_some_iff.mp h
      obtain ⟨z, hz, h⟩ := Option.bind_eq_some_iff.mp h
      obtain ⟨w, hw, h⟩ := Option.bind_eq_some_iff.mp h
      obtain ⟨⟨qs, rest'⟩, hqs, h⟩ := Option.bind_eq_some_iff.mp h
      obtain ⟨rfl, rfl⟩ := Prod.mk.inj (Option.some.inj h)
      obtain ⟨text, htext, rfl⟩ := ih _ (by simp only [List.length_cons]; omega) hqs rfl
      exact ⟨_, .unit hx hy hz hw htext, rfl⟩
    · rename_i e tail _
      have hescape : ∃ c qs, (e, c) ∈ escapes ∧ pieces? tail = some (qs, rest) ∧ ps = .char c :: qs := by
        dsimp only at h
        split at h
        all_goals
          obtain ⟨c, hc, h⟩ := Option.bind_eq_some_iff.mp h
          cases hc
        all_goals
          obtain ⟨⟨qs, rest'⟩, hqs, h⟩ := Option.bind_eq_some_iff.mp h
          obtain ⟨rfl, rfl⟩ := Prod.mk.inj (Option.some.inj h)
          exact ⟨_, qs, by decide, hqs, rfl⟩
      obtain ⟨c, qs, letter, hqs, rfl⟩ := hescape
      obtain ⟨text, htext, rfl⟩ := ih _ (by simp only [List.length_cons]; omega) hqs rfl
      exact ⟨_, .escape letter htext, rfl⟩
    · rename_i hquote _ _
      split at h
      · cases h
      · rename_i hplain
        obtain ⟨⟨qs, rest'⟩, hqs, h⟩ := Option.map_eq_some_iff.mp h
        obtain ⟨rfl, rfl⟩ := Prod.mk.inj h
        obtain ⟨text, htext, rfl⟩ := ih _ (by simp) hqs rfl
        refine ⟨_, .plain (by omega) (fun hc => hquote hc) (fun hc => hplain (.inr hc)) htext, rfl⟩

theorem pieces?_append {ps : List Piece} {text : List Char} (h : PiecesText ps text) (rest : List Char) :
    pieces? (text ++ '"' :: rest) = some (ps, rest) := by
  induction h with
  | nil => simp [pieces?]
  | plain printable _ backslash _ ih => simp [pieces?, printable, backslash, ih]
  | escape letter _ ih =>
    simp only [escapes, List.mem_cons, Prod.mk.injEq, List.not_mem_nil, or_false] at letter
    rcases letter with ⟨rfl, rfl⟩ | ⟨rfl, rfl⟩ | ⟨rfl, rfl⟩ | ⟨rfl, rfl⟩ | ⟨rfl, rfl⟩ | ⟨rfl, rfl⟩ | ⟨rfl, rfl⟩ |
      ⟨rfl, rfl⟩ <;> simp [pieces?, ih]
  | unit first second third fourth _ ih => simp [pieces?, first, second, third, fourth, ih]

end Strings

end Written

end RankedPlans.Json
