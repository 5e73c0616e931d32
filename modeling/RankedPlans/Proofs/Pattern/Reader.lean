import RankedPlans.Proofs.Pattern.ClassReader
import RankedPlans.Proofs.Pattern.Matching

/-! How expressions are read: an expression is read from its own text, and more text with an ending behind it is
read alike up to that ending, so that an expression in a group is the one that its text writes by itself. -/

namespace RankedPlans.Pattern

open CharClass (dropWhile_append_ending takeWhile_append_ending)

variable {fuel n : Nat} {cs rest : List Char} {p q : Pattern} {ps : List Pattern}

section Repetitions

variable {least : Nat} {most : Option Nat}

theorem number?_eq_some (h : number? cs = some (n, rest)) :
    (∃ used, cs = used ++ rest) ∧ number? (cs ++ ending) = some (n, rest ++ ending) := by
  unfold number? at h ⊢
  dsimp only at h ⊢
  rw [dropWhile_append_ending (by decide), takeWhile_append_ending (by decide), dropWhile_append_ending (by decide),
    dropWhile_append_ending (by decide)]
  refine ⟨?_, ?_⟩
  · have hsuffix : rest <:+ cs := by
      split at h
      · cases h
      · split at h
        · cases h
          exact ((List.dropWhile_suffix _).trans (List.dropWhile_suffix _)).trans (List.dropWhile_suffix _)
        · cases h
    obtain ⟨used, hused⟩ := hsuffix
    exact ⟨used, hused.symm⟩
  · split at h
    · cases h
    · rename_i hdigits
      split at h
      · rename_i hle
        cases h
        simpa [hdigits] using hle
      · cases h

/-- The bounds of a repetition after its sign. -/
def bounds? : List Char → Option ((Nat × Option Nat) × List Char)
  | '*' :: rest => some ((0, none), rest)
  | '+' :: rest => some ((1, none), rest)
  | '?' :: rest => some ((0, some 1), rest)
  | '\x7b' :: rest => counts? rest
  | _ => none

theorem counts?_eq_some (h : counts? cs = some ((least, most), rest)) :
    (∀ m ∈ most, least ≤ m) ∧ (∃ used, cs = used ++ '\x7d' :: rest) ∧
      counts? (cs ++ ending) = some ((least, most), rest ++ ending) := by
  obtain ⟨⟨n, cs'⟩, hn, hrest⟩ := Option.bind_eq_some_iff.mp h
  obtain ⟨⟨used, rfl⟩, hread⟩ := number?_eq_some hn
  simp only [counts?, hread, Option.bind_eq_bind, Option.bind_some]
  dsimp only at hrest
  split at hrest
  · cases hrest
    exact ⟨fun m hm => Nat.le_of_eq (Option.some.inj hm), ⟨used, rfl⟩, rfl⟩
  · cases hrest
    exact ⟨nofun, ⟨used ++ [','], by simp⟩, rfl⟩
  · rename_i after hplain
    obtain ⟨⟨m, cs'⟩, hm, hlast⟩ := Option.bind_eq_some_iff.mp hrest
    obtain ⟨⟨used', heq⟩, hread'⟩ := number?_eq_some hm
    dsimp only at hlast
    split at hlast
    · split at hlast
      · rename_i hle
        cases hlast
        refine ⟨fun m' hm' => Option.some.inj hm' ▸ hle, ⟨used ++ ',' :: used', by rw [heq]; simp⟩, ?_⟩
        cases after with
        | nil => cases hm
        | cons c after =>
          have hc : c ≠ '\x7d' := fun hc => hplain after (hc ▸ rfl)
          simp only [List.cons_append] at hread' ⊢
          simp [hc, hread', hle]
      · cases hlast
    · cases hlast
  · cases hrest

theorem bounds?_eq_some (h : bounds? cs = some ((least, most), rest)) :
    (∀ m ∈ most, least ≤ m) ∧ (∃ used last, cs = used ++ last :: rest ∧ last ≠ '$') ∧
      bounds? (cs ++ ending) = some ((least, most), rest ++ ending) := by
  unfold bounds? at h
  split at h
  · cases h
    exact ⟨nofun, ⟨[], '*', rfl, by decide⟩, rfl⟩
  · cases h
    exact ⟨nofun, ⟨[], '+', rfl, by decide⟩, rfl⟩
  · cases h
    exact ⟨fun m _ => Nat.zero_le m, ⟨[], '?', rfl, by decide⟩, rfl⟩
  · obtain ⟨hle, ⟨used, rfl⟩, hread⟩ := counts?_eq_some h
    exact ⟨hle, ⟨'\x7b' :: used, '\x7d', rfl, by decide⟩, hread⟩
  · cases h

theorem greedy_spec (cs : List Char) :
    ((greedy cs).2 = cs ∨ cs = '?' :: (greedy cs).2) ∧
      greedy (cs ++ ending) = ((greedy cs).1, (greedy cs).2 ++ ending) := by
  unfold greedy
  split
  · exact ⟨.inr rfl, rfl⟩
  · rename_i hplain
    refine ⟨.inl rfl, ?_⟩
    cases cs with
    | nil => rfl
    | cons c cs =>
      have hc : c ≠ '?' := fun hc => hplain cs (hc ▸ rfl)
      simp [hc]

/-- What repetitions are read from. -/
inductive RepetitionRead (fuel : Nat) (p : Pattern) : List Char → Pattern → List Char → Prop where
  | done {cs : List Char} (plain : ∀ c ∈ cs.head?, c ∉ ['*', '+', '?', '\x7b']) : RepetitionRead fuel p cs p cs
  | more {cs cs' rest : List Char} {q : Pattern} {least : Nat} {most : Option Nat}
      (bounds : bounds? cs = some ((least, most), cs'))
      (h : repetitions fuel (repeated p least most (greedy cs').1) (greedy cs').2 = some (q, rest)) :
      RepetitionRead fuel p cs q rest

theorem repetitions_succ : repetitions (fuel + 1) p cs = some (q, rest) ↔ RepetitionRead fuel p cs q rest := by
  constructor
  · intro h
    rw [repetitions.eq_def] at h
    dsimp only at h
    split at h
    case h_1 => exact .more rfl h
    case h_2 => exact .more rfl h
    case h_3 => exact .more rfl h
    case h_4 =>
      obtain ⟨⟨⟨least, most⟩, cs'⟩, hcounts, h⟩ := Option.bind_eq_some_iff.mp h
      exact .more hcounts h
    case h_5 hstar hplus hoption hbrace =>
      cases h
      refine .done fun c hc hmem => ?_
      obtain ⟨cs, rfl⟩ := List.head?_eq_some_iff.mp hc
      simp only [List.mem_cons, List.not_mem_nil, or_false] at hmem
      rcases hmem with rfl | rfl | rfl | rfl
      · exact hstar cs rfl
      · exact hplus cs rfl
      · exact hoption cs rfl
      · exact hbrace cs rfl
  · intro h
    cases h with
    | done hplain =>
      rw [repetitions.eq_def]
      dsimp only
      split <;> simp_all
    | more hbounds h =>
      rw [repetitions.eq_def]
      dsimp only
      unfold bounds? at hbounds
      split at hbounds
      · cases hbounds; exact h
      · cases hbounds; exact h
      · cases hbounds; exact h
      · simp [hbounds, h]
      · cases hbounds

/-- Repetitions say nothing, or they are read from a text that does not end in the sign for the end. -/
theorem repetitions_settled (hp : p.Proper) (h : repetitions fuel p cs = some (q, rest)) :
    q.Proper ∧ (rest = cs ∧ q = p ∨ ∃ used last, cs = used ++ last :: rest ∧ last ≠ '$') ∧
      ∀ fuel' ≥ fuel, repetitions fuel' p (cs ++ ending) = some (q, rest ++ ending) := by
  induction fuel generalizing p cs with
  | zero => cases h
  | succ fuel ih =>
    suffices hread : q.Proper ∧ (rest = cs ∧ q = p ∨ ∃ used last, cs = used ++ last :: rest ∧ last ≠ '$') ∧
        ∀ fuel' ≥ fuel, RepetitionRead fuel' p (cs ++ ending) q (rest ++ ending) by
      refine ⟨hread.1, hread.2.1, fun fuel' hfuel => ?_⟩
      obtain ⟨fuel', rfl⟩ : ∃ m, fuel' = m + 1 := ⟨fuel' - 1, by omega⟩
      exact repetitions_succ.mpr (hread.2.2 _ (by omega))
    cases repetitions_succ.mp h with
    | done hplain =>
      refine ⟨hp, .inl ⟨rfl, rfl⟩, fun _ _ => .done fun c hc => ?_⟩
      cases rest with
      | nil =>
        obtain rfl : ')' = c := Option.some.inj hc
        decide
      | cons d cs => exact hplain c hc
    | @more cs' _ _ least most hbounds hrest =>
      obtain ⟨hle, ⟨used, last, heq, hlast⟩, hread⟩ := bounds?_eq_some hbounds
      obtain ⟨hgreedy, happend⟩ := greedy_spec cs'
      obtain ⟨hq, hused, hmore⟩ := ih (p := repeated p least most (greedy cs').1) ⟨hp, hle⟩ hrest
      refine ⟨hq, .inr ?_, fun fuel' hfuel => .more hread ?_⟩
      · -- the last sign is that of further repetitions, a question mark, or the sign of these bounds
        rcases hused with ⟨hsame, -⟩ | ⟨used', last', hmore, hlast'⟩
        · rw [← hsame] at hgreedy
          rcases hgreedy with hgreedy | hgreedy
          · exact ⟨used, last, by rw [heq, hgreedy], hlast⟩
          · exact ⟨used ++ [last], '?', by rw [heq, hgreedy]; simp, by decide⟩
        · rcases hgreedy with hgreedy | hgreedy
          · exact ⟨used ++ last :: used', last', by rw [heq, ← hgreedy, hmore]; simp, hlast'⟩
          · exact ⟨used ++ last :: '?' :: used', last', by rw [heq, hgreedy, hmore]; simp, hlast'⟩
      · rw [happend]
        exact hmore fuel' hfuel

end Repetitions

section Expressions

/-- The expression that one character writes by itself. -/
def sign? (c : Char) : Option Pattern :=
  match c with
  | '.' => some any
  | '^' => some start
  | '$' => some stop
  | c => if c ∈ ['(', '[', '\\', '*', '+', '?', '\x7b'] then none else some (literal c)

/-- What one expression is read from. -/
inductive AtomRead (fuel : Nat) : List Char → Pattern → List Char → Prop where
  | plain {cs rest : List Char} {p : Pattern} (h : group? fuel false cs = some (p, rest)) :
      AtomRead fuel ('(' :: '?' :: ':' :: cs) p rest
  | capture {cs rest : List Char} {p : Pattern} (hne : cs.head? ≠ some '?') (h : group? fuel true cs = some (p, rest)) :
      AtomRead fuel ('(' :: cs) p rest
  | oneOf {cs rest : List Char} {k : CharClass} (h : CharClass.read? (fuel + 1) cs = some (k, rest)) :
      AtomRead fuel ('[' :: cs) (oneOf k) rest
  | wordStart {rest : List Char} : AtomRead fuel ('\\' :: '<' :: rest) wordStart rest
  | wordStop {rest : List Char} : AtomRead fuel ('\\' :: '>' :: rest) wordStop rest
  | escaped {c d : Char} {rest : List Char} (h : CharClass.escaped? c = some d) :
      AtomRead fuel ('\\' :: c :: rest) (literal d) rest
  | sign {c : Char} {rest : List Char} {p : Pattern} (h : sign? c = some p) : AtomRead fuel (c :: rest) p rest

theorem proper_of_sign? {c : Char} (h : sign? c = some p) : p.Proper := by
  unfold sign? at h
  split at h
  · cases h; trivial
  · cases h; trivial
  · cases h; trivial
  · split at h
    · cases h
    · cases h; trivial

theorem atom?_succ : atom? (fuel + 1) cs = some (p, rest) ↔ AtomRead fuel cs p rest := by
  constructor
  · intro h
    rw [atom?.eq_def] at h
    dsimp only at h
    split at h
    case h_1 => exact .plain h
    case h_2 => cases h
    case h_3 hne =>
      refine .capture (fun heq => ?_) h
      obtain ⟨r, rfl⟩ := List.head?_eq_some_iff.mp heq
      exact hne r rfl
    case h_4 =>
      obtain ⟨⟨k, r⟩, hk, heq⟩ := Option.map_eq_some_iff.mp h
      cases heq
      exact .oneOf hk
    case h_5 => cases h; exact .sign rfl
    case h_6 => cases h; exact .sign rfl
    case h_7 => cases h; exact .sign rfl
    case h_8 => cases h; exact .wordStart
    case h_9 => cases h; exact .wordStop
    case h_10 =>
      obtain ⟨c, hc, heq⟩ := Option.map_eq_some_iff.mp h
      cases heq
      exact .escaped hc
    case h_11 =>
      split at h
      · cases h
      · cases h
        refine .sign ?_
        simp_all [sign?]
    case h_12 => cases h
  · intro h
    cases h with
    | plain h => exact h
    | capture hne h =>
      rw [atom?.eq_def]
      dsimp only
      split <;> grind
    | oneOf h => simp [atom?, h]
    | wordStart => rfl
    | wordStop => rfl
    | escaped h =>
      rw [atom?.eq_def]
      dsimp only
      split <;> grind [CharClass.escaped?]
    | sign h =>
      rw [atom?.eq_def]
      dsimp only
      split <;> grind [sign?]

/-- Whether a text has no further expression in a row. -/
def endsRow (cs : List Char) : Prop :=
  ∀ c ∈ cs.head?, c = ')' ∨ c = '|'

theorem endsRow_append_ending (cs : List Char) : endsRow (cs ++ ending) ↔ endsRow cs := by
  cases cs <;> simp [endsRow, ending]

theorem sequence?_succ : sequence? (fuel + 1) cs = some (ps, rest) ↔ (endsRow cs ∧ ps = [] ∧ rest = cs) ∨
    ¬endsRow cs ∧ ∃ p cs' q cs'' qs, atom? fuel cs = some (p, cs') ∧
      repetitions (fuel + 1) p cs' = some (q, cs'') ∧ sequence? fuel cs'' = some (qs, rest) ∧ ps = q :: qs := by
  rw [sequence?.eq_def]
  dsimp only
  split
  case h_1 => simp [endsRow, eq_comm]
  case h_2 => simp [endsRow, eq_comm]
  case h_3 => simp [endsRow, eq_comm]
  case h_4 hnil hclose hbar =>
    have hends : ¬endsRow cs := by
      cases cs with
      | nil => exact absurd rfl hnil
      | cons c cs =>
        intro hends
        rcases hends c rfl with rfl | rfl
        · exact hclose cs rfl
        · exact hbar cs rfl
    simp only [hends, false_and, false_or, not_false_eq_true, true_and, Option.bind_eq_bind, Option.bind_eq_some_iff,
      Prod.exists, Option.pure_def, Option.some.injEq, Prod.mk.injEq]
    constructor
    · rintro ⟨p, cs', hatom, q, cs'', hrep, qs, rest', hseq, rfl, rfl⟩
      exact ⟨p, cs', q, cs'', qs, hatom, hrep, hseq, rfl⟩
    · rintro ⟨p, cs', q, cs'', qs, hatom, hrep, hseq, rfl⟩
      exact ⟨p, cs', hatom, q, cs'', hrep, qs, rest, hseq, rfl, rfl⟩

theorem alternatives?_succ : alternatives? (fuel + 1) cs = some (p, rest) ↔
    ∃ ps cs', sequence? fuel cs = some (ps, cs') ∧ ((cs'.head? ≠ some '|' ∧ p = inRow ps ∧ rest = cs') ∨
      ∃ cs'' q, cs' = '|' :: cs'' ∧ alternatives? fuel cs'' = some (q, rest) ∧ p = either (inRow ps) q) := by
  rw [alternatives?.eq_def]
  simp only [Option.bind_eq_bind, Option.bind_eq_some_iff, Prod.exists]
  refine exists_congr fun ps => exists_congr fun cs' => and_congr_right fun _ => ?_
  split
  · rename_i cs''
    simp only [List.head?_cons, ne_eq, not_true_eq_false, false_and, false_or, Option.bind_eq_some_iff, Prod.exists,
      List.cons.injEq, true_and, exists_and_left, exists_eq_left', Option.pure_def, Option.some.injEq, Prod.mk.injEq]
    constructor
    · rintro ⟨q, rest', hq, rfl, rfl⟩
      exact ⟨q, hq, rfl⟩
    · rintro ⟨q, hq, rfl⟩
      exact ⟨q, rest, hq, rfl, rfl⟩
  · rename_i hplain
    have hhead : cs'.head? ≠ some '|' := fun hhead => by
      obtain ⟨cs'', rfl⟩ := List.head?_eq_some_iff.mp hhead
      exact hplain cs'' rfl
    constructor
    · intro h
      cases h
      exact .inl ⟨hhead, rfl, rfl⟩
    · rintro (⟨-, rfl, rfl⟩ | ⟨cs'', q, rfl, -⟩)
      · rfl
      · exact absurd rfl hhead

theorem group?_succ {captures : Bool} : group? (fuel + 1) captures cs = some (p, rest) ↔
    ∃ q, alternatives? fuel cs = some (q, ')' :: rest) ∧ p = group captures q := by
  rw [group?.eq_def]
  simp only [Option.bind_eq_bind, Option.bind_eq_some_iff, Prod.exists]
  constructor
  · rintro ⟨q, cs', hq, h⟩
    split at h
    · rename_i heq
      cases heq
      cases h
      exact ⟨q, hq, rfl⟩
    · cases h
  · rintro ⟨q, hq, rfl⟩
    exact ⟨q, _, hq, rfl⟩

/-- The text of one expression: the sign for the end, that sign with a backslash, or a text with another last
character. -/
inductive AtomText : List Char → Pattern → Prop where
  | stop : AtomText ['$'] stop
  | escaped {p : Pattern} : AtomText ['\\', '$'] p
  | other {used : List Char} {last : Char} {p : Pattern} (h : last ≠ '$') : AtomText (used ++ [last]) p

/-- What the readers of expressions have read with some fuel is proper, and it is what they read with more fuel and
with an ending behind. -/
structure Settled (fuel : Nat) : Prop where
  alternatives {cs rest : List Char} {p : Pattern} (h : alternatives? fuel cs = some (p, rest)) :
    p.Proper ∧ (∃ used, cs = used ++ rest) ∧
      ∀ fuel' ≥ fuel, alternatives? fuel' (cs ++ ending) = some (p, rest ++ ending)
  sequence {cs rest : List Char} {ps : List Pattern} (h : sequence? fuel cs = some (ps, rest)) :
    (inRow ps).Proper ∧ (∃ used, cs = used ++ rest) ∧
      ∀ fuel' ≥ fuel, sequence? fuel' (cs ++ ending) = some (ps, rest ++ ending)
  atom {cs rest : List Char} {p : Pattern} (h : atom? fuel cs = some (p, rest)) :
    p.Proper ∧ (∃ used, cs = used ++ rest ∧ AtomText used p) ∧
      ∀ fuel' ≥ fuel, atom? fuel' (cs ++ ending) = some (p, rest ++ ending)
  group {captures : Bool} {cs rest : List Char} {p : Pattern} (h : group? fuel captures cs = some (p, rest)) :
    p.Proper ∧ (∃ used, cs = used ++ ')' :: rest) ∧
      ∀ fuel' ≥ fuel, group? fuel' captures (cs ++ ending) = some (p, rest ++ ending)

namespace Settled

theorem alternatives_succ (ih : Settled fuel) (h : alternatives? (fuel + 1) cs = some (p, rest)) :
    p.Proper ∧ (∃ used, cs = used ++ rest) ∧
      ∀ fuel' ≥ fuel + 1, alternatives? fuel' (cs ++ ending) = some (p, rest ++ ending) := by
  obtain ⟨ps, cs', hseq, hlast⟩ := alternatives?_succ.mp h
  obtain ⟨hps, ⟨used, rfl⟩, hread⟩ := ih.sequence hseq
  rcases hlast with ⟨hhead, rfl, rfl⟩ | ⟨cs'', q, rfl, hq, rfl⟩
  · refine ⟨hps, ⟨used, rfl⟩, fun fuel' hfuel => ?_⟩
    obtain ⟨fuel', rfl⟩ : ∃ m, fuel' = m + 1 := ⟨fuel' - 1, by omega⟩
    refine alternatives?_succ.mpr ⟨ps, _, hread _ (by omega), .inl ⟨fun h => ?_, rfl, rfl⟩⟩
    cases rest with
    | nil => cases h
    | cons c rest => exact hhead h
  · obtain ⟨hproper, ⟨used', rfl⟩, hmore⟩ := ih.alternatives hq
    refine ⟨⟨hps, hproper⟩, ⟨used ++ '|' :: used', by simp⟩, fun fuel' hfuel => ?_⟩
    obtain ⟨fuel', rfl⟩ : ∃ m, fuel' = m + 1 := ⟨fuel' - 1, by omega⟩
    exact alternatives?_succ.mpr ⟨ps, _, hread _ (by omega), .inr ⟨_, q, rfl, hmore _ (by omega), rfl⟩⟩

theorem proper_inRow_cons (hp : p.Proper) (hps : (inRow ps).Proper) : (inRow (p :: ps)).Proper := by
  cases ps with
  | nil => exact hp
  | cons q ps => exact ⟨hp, hps⟩

theorem sequence_succ (ih : Settled fuel) (h : sequence? (fuel + 1) cs = some (ps, rest)) :
    (inRow ps).Proper ∧ (∃ used, cs = used ++ rest) ∧
      ∀ fuel' ≥ fuel + 1, sequence? fuel' (cs ++ ending) = some (ps, rest ++ ending) := by
  rcases sequence?_succ.mp h with ⟨hends, rfl, rfl⟩ | ⟨hends, p, cs', q, cs'', qs, hatom, hrep, hseq, rfl⟩
  · refine ⟨trivial, ⟨[], rfl⟩, fun fuel' hfuel => ?_⟩
    obtain ⟨fuel', rfl⟩ : ∃ m, fuel' = m + 1 := ⟨fuel' - 1, by omega⟩
    exact sequence?_succ.mpr (.inl ⟨(endsRow_append_ending _).mpr hends, rfl, rfl⟩)
  · obtain ⟨hp, ⟨used, rfl, -⟩, hread⟩ := ih.atom hatom
    obtain ⟨hq, hused, hread'⟩ := repetitions_settled hp hrep
    obtain ⟨hqs, ⟨used'', rfl⟩, hread''⟩ := ih.sequence hseq
    refine ⟨proper_inRow_cons hq hqs, ?_, fun fuel' hfuel => ?_⟩
    · rcases hused with ⟨rfl, -⟩ | ⟨used', last, rfl, -⟩
      · exact ⟨used ++ used'', by simp⟩
      · exact ⟨used ++ used' ++ last :: used'', by simp⟩
    · obtain ⟨fuel', rfl⟩ : ∃ m, fuel' = m + 1 := ⟨fuel' - 1, by omega⟩
      exact sequence?_succ.mpr (.inr ⟨fun h => hends ((endsRow_append_ending _).mp h), p, _, q, _, qs,
        hread _ (by omega), hread' _ (by omega), hread'' _ (by omega), rfl⟩)

theorem group_succ (ih : Settled fuel) {captures : Bool} (h : group? (fuel + 1) captures cs = some (p, rest)) :
    p.Proper ∧ (∃ used, cs = used ++ ')' :: rest) ∧
      ∀ fuel' ≥ fuel + 1, group? fuel' captures (cs ++ ending) = some (p, rest ++ ending) := by
  obtain ⟨q, hq, rfl⟩ := group?_succ.mp h
  obtain ⟨hproper, hused, hread⟩ := ih.alternatives hq
  refine ⟨hproper, hused, fun fuel' hfuel => ?_⟩
  obtain ⟨fuel', rfl⟩ : ∃ m, fuel' = m + 1 := ⟨fuel' - 1, by omega⟩
  exact group?_succ.mpr ⟨q, hread _ (by omega), rfl⟩

theorem atom_succ (ih : Settled fuel) (h : atom? (fuel + 1) cs = some (p, rest)) :
    p.Proper ∧ (∃ used, cs = used ++ rest ∧ AtomText used p) ∧
      ∀ fuel' ≥ fuel + 1, atom? fuel' (cs ++ ending) = some (p, rest ++ ending) := by
  suffices hread : p.Proper ∧ (∃ used, cs = used ++ rest ∧ AtomText used p) ∧
      ∀ fuel' ≥ fuel, AtomRead fuel' (cs ++ ending) p (rest ++ ending) by
    refine ⟨hread.1, hread.2.1, fun fuel' hfuel => ?_⟩
    obtain ⟨fuel', rfl⟩ : ∃ m, fuel' = m + 1 := ⟨fuel' - 1, by omega⟩
    exact atom?_succ.mpr (hread.2.2 _ (by omega))
  cases atom?_succ.mp h with
  | plain h =>
    obtain ⟨hp, ⟨used, rfl⟩, hread⟩ := ih.group h
    exact ⟨hp, ⟨'(' :: '?' :: ':' :: used ++ [')'], by simp, .other (by decide)⟩,
      fun fuel' hfuel => .plain (hread fuel' hfuel)⟩
  | capture hne h =>
    obtain ⟨hp, ⟨used, rfl⟩, hread⟩ := ih.group h
    refine ⟨hp, ⟨'(' :: used ++ [')'], by simp, .other (by decide)⟩, fun fuel' hfuel => .capture ?_ (hread fuel' hfuel)⟩
    cases used with
    | nil => simp
    | cons c used => exact hne
  | oneOf h =>
    obtain ⟨⟨used, rfl⟩, hread⟩ := (CharClass.settled _).read h
    exact ⟨trivial, ⟨'[' :: used ++ [']'], by simp, .other (by decide)⟩,
      fun fuel' hfuel => .oneOf (hread _ (by omega))⟩
  | wordStart => exact ⟨trivial, ⟨['\\'] ++ ['<'], rfl, .other (by decide)⟩, fun _ _ => .wordStart⟩
  | wordStop => exact ⟨trivial, ⟨['\\'] ++ ['>'], rfl, .other (by decide)⟩, fun _ _ => .wordStop⟩
  | @escaped c d _ hc =>
    refine ⟨trivial, ⟨['\\', c], rfl, ?_⟩, fun _ _ => .escaped hc⟩
    by_cases hstop : c = '$'
    · exact hstop ▸ .escaped
    · show AtomText (['\\'] ++ [c]) _
      exact .other hstop
  | @sign c _ _ hc =>
    refine ⟨?_, ⟨[c], rfl, ?_⟩, fun _ _ => .sign hc⟩
    · exact proper_of_sign? hc
    · by_cases hstop : c = '$'
      · subst hstop
        cases hc
        exact .stop
      · show AtomText ([] ++ [c]) _
        exact .other hstop

end Settled

theorem settled (fuel : Nat) : Settled fuel := by
  induction fuel with
  | zero => exact ⟨nofun, nofun, nofun, nofun⟩
  | succ fuel ih => exact ⟨ih.alternatives_succ, ih.sequence_succ, ih.atom_succ, ih.group_succ⟩

end Expressions

theorem parse?_eq_some_iff {text : String} :
    parse? text = some p ↔ alternatives? (4 * text.toList.length + 4) text.toList = some (p, []) := by
  unfold parse?
  dsimp only
  split
  · rename_i heq
    simp [heq]
  · rename_i hne
    refine ⟨nofun, fun h => (hne p h).elim⟩

theorem proper_of_parse? {text : String} (h : parse? text = some p) : p.Proper :=
  ((settled _).alternatives (parse?_eq_some_iff.mp h)).1

end RankedPlans.Pattern
