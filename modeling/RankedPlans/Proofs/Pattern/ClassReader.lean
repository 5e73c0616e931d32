import Mathlib.Data.List.TakeWhile
import RankedPlans.Pattern.Reader

/-! How classes of characters are read: a class is read from its own text, up to its closing bracket, and what
follows the text of an expression in a group does not change that. -/

namespace RankedPlans

/-- What follows the text of an expression for whole names. -/
def Pattern.ending : List Char := [')', '$']

open Pattern (ending)

namespace CharClass

variable {fuel : Nat} {cs rest : List Char} {c : Char} {k : CharClass} {p : Partial}

theorem dropWhile_append_ending {f : Char → Bool} (hf : f ')' = false) (cs : List Char) :
    (cs ++ ending).dropWhile f = cs.dropWhile f ++ ending := by
  induction cs with
  | nil => simp [ending, hf]
  | cons c cs ih => by_cases hc : f c = true <;> simp [hc, ih]

theorem takeWhile_append_ending {f : Char → Bool} (hf : f ')' = false) (cs : List Char) :
    (cs ++ ending).takeWhile f = cs.takeWhile f := by
  induction cs with
  | nil => simp [ending, hf]
  | cons c cs ih => by_cases hc : f c = true <;> simp [hc, ih]

theorem char?_eq_some (h : char? cs = some (c, rest)) :
    (∃ used, used ≠ [] ∧ cs = used ++ rest) ∧ ∀ tail, char? (cs ++ tail) = some (c, rest ++ tail) := by
  rw [char?.eq_def] at h
  split at h
  · obtain ⟨d, hd, heq⟩ := Option.map_eq_some_iff.mp h
    cases heq
    exact ⟨⟨['\\', _], by simp, rfl⟩, fun tail => by simp [char?, hd]⟩
  · cases h
  · rename_i hescape hend
    cases h
    have hc : c ≠ '\\' := by
      rintro rfl
      cases rest with
      | nil => exact hend rfl rfl
      | cons d rest => exact hescape d rest rfl rfl
    exact ⟨⟨[c], by simp, rfl⟩, fun tail => by simp [char?, hc]⟩
  · cases h

/-- The operation that a doubled character stands for. -/
def operation? (c : Char) : Option ClassOperation :=
  match c with
  | '&' => some .intersection
  | '-' => some .difference
  | '~' => some .symmetricDifference
  | _ => none

/-- What the rest of a class is read from. -/
inductive RestRead (fuel : Nat) (p : Partial) : List Char → CharClass → List Char → Prop where
  | close {rest : List Char} : RestRead fuel p (']' :: rest) p.whole rest
  | named {cs cs' rest : List Char} {k k' : CharClass} (name : ascii? cs = some (k, cs'))
      (h : readRest? fuel (p.add k) cs' = some (k', rest)) : RestRead fuel p ('[' :: cs) k' rest
  | nested {cs cs' rest : List Char} {k k' : CharClass} (noName : ascii? cs = none)
      (inner : read? fuel cs = some (k, cs')) (h : readRest? fuel (p.add k) cs' = some (k', rest)) :
      RestRead fuel p ('[' :: cs) k' rest
  | operation {c : Char} {op : ClassOperation} {cs rest : List Char} {k : CharClass} (sign : operation? c = some op)
      (h : readRest? fuel (p.operate op) cs = some (k, rest)) : RestRead fuel p (c :: c :: cs) k rest
  | item {c : Char} {cs cs' rest : List Char} {k k' : CharClass} (opens : c ≠ '[') (closes : c ≠ ']')
      (plain : cs.head? = some c → operation? c = none) (range : range? (c :: cs) = some (k, cs'))
      (h : readRest? fuel (p.add k) cs' = some (k', rest)) : RestRead fuel p (c :: cs) k' rest

theorem readRest?_succ : readRest? (fuel + 1) p cs = some (k, rest) ↔ RestRead fuel p cs k rest := by
  constructor
  · intro h
    rw [readRest?.eq_def] at h
    dsimp only at h
    split at h
    case h_1 => cases h; exact .close
    case h_2 =>
      split at h
      · rename_i hname
        exact .named hname h
      · rename_i hname
        obtain ⟨⟨k', cs'⟩, hinner, h⟩ := Option.bind_eq_some_iff.mp h
        exact .nested hname hinner h
    case h_3 => exact .operation rfl h
    case h_4 => exact .operation rfl h
    case h_5 => exact .operation rfl h
    case h_6 hcloses hopens hand hminus hxor =>
      obtain ⟨⟨k', cs'⟩, hrange, hrest⟩ := Option.bind_eq_some_iff.mp h
      cases cs with
      | nil => cases hrange
      | cons c cs =>
        refine .item (fun hc => hopens cs (hc ▸ rfl)) (fun hc => hcloses cs (hc ▸ rfl)) (fun hhead => ?_) hrange hrest
        obtain ⟨cs, rfl⟩ := List.head?_eq_some_iff.mp hhead
        unfold operation?
        split
        · exact (hand cs rfl).elim
        · exact (hminus cs rfl).elim
        · exact (hxor cs rfl).elim
        · rfl
  · intro h
    cases h with
    | close => rfl
    | named hname h =>
      rw [readRest?]
      simp only [hname, h]
    | nested hname hinner h =>
      rw [readRest?]
      simp [hname, hinner, h]
    | operation hsign h =>
      unfold operation? at hsign
      split at hsign
      · cases hsign; exact h
      · cases hsign; exact h
      · cases hsign; exact h
      · cases hsign
    | item hopens hcloses hplain hrange h =>
      rw [readRest?.eq_def]
      dsimp only
      split
      case h_1 heq => cases heq; exact absurd rfl hcloses
      case h_2 heq => cases heq; exact absurd rfl hopens
      case h_3 heq => cases heq; cases hplain rfl
      case h_4 heq => cases heq; cases hplain rfl
      case h_5 heq => cases heq; cases hplain rfl
      case h_6 => rw [hrange]; exact h

theorem range?_eq_some (h : range? cs = some (k, rest)) :
    (∃ used, used ≠ [] ∧ cs = used ++ rest) ∧ range? (cs ++ ending) = some (k, rest ++ ending) := by
  obtain ⟨⟨low, cs'⟩, hlow, hrest⟩ := Option.bind_eq_some_iff.mp h
  obtain ⟨⟨used, hne, rfl⟩, hread⟩ := char?_eq_some hlow
  simp only [range?, hread, Option.bind_eq_bind, Option.bind_some]
  dsimp only at hrest
  split at hrest
  · cases hrest
    exact ⟨⟨used, hne, rfl⟩, rfl⟩
  · cases hrest
    exact ⟨⟨used, hne, rfl⟩, rfl⟩
  · rename_i after hbracket hhyphen
    obtain ⟨⟨high, rest'⟩, hhigh, hlast⟩ := Option.bind_eq_some_iff.mp hrest
    obtain ⟨⟨used', hne', rfl⟩, hread'⟩ := char?_eq_some hhigh
    have hle : low ≤ high ∧ k = range low high ∧ rest' = rest := by
      split at hlast
      · cases hlast
        exact ⟨‹_›, rfl, rfl⟩
      · cases hlast
    obtain ⟨hle, rfl, rfl⟩ := hle
    refine ⟨⟨used ++ '-' :: used', by simp, by simp⟩, ?_⟩
    cases used' with
    | nil => exact absurd rfl hne'
    | cons c used' =>
      have hbracket : c ≠ ']' := fun hc => hbracket (used' ++ rest') (hc ▸ rfl)
      have hhyphen : c ≠ '-' := fun hc => hhyphen (used' ++ rest') (hc ▸ rfl)
      have hhigh := hread' ending
      simp only [List.cons_append, List.append_assoc] at hhigh ⊢
      simp [hbracket, hhyphen, hhigh, hle]
  · rename_i hplain
    cases hrest
    refine ⟨⟨used, hne, rfl⟩, ?_⟩
    cases rest with
    | nil => rfl
    | cons c rest =>
      have hc : c ≠ '-' := fun hc => hplain rest (hc ▸ rfl)
      simp [hc]

/-- Whether a class is negated, and what is after the sign for that. -/
def negation (cs : List Char) : Bool × List Char :=
  match cs with
  | '^' :: rest => (true, rest)
  | cs => (false, cs)

/-- The characters that stand for themselves at the front of a class, and what is after them. -/
def front (cs : List Char) : List CharClass × List Char :=
  let hyphens := (cs.takeWhile (· = '-')).map fun c => range c c
  match hyphens, cs.dropWhile (· = '-') with
  | [], ']' :: rest => ([range ']' ']'], rest)
  | _, cs => (hyphens, cs)

theorem read?_succ : read? (fuel + 1) cs =
    (readRest? fuel ⟨(front (negation cs).2).1, none⟩ (front (negation cs).2).2).map
      fun r => ((if (negation cs).1 then r.1.negate else r.1).bracketed, r.2) := by
  have hread : read? (fuel + 1) cs =
      (readRest? fuel ⟨(front (negation cs).2).1, none⟩ (front (negation cs).2).2).bind
        fun r => some ((if (negation cs).1 then r.1.negate else r.1).bracketed, r.2) := rfl
  rw [hread, Option.map_eq_bind]
  rfl

theorem negation_spec (cs : List Char) : (∃ used, cs = used ++ (negation cs).2) ∧
    negation (cs ++ ending) = ((negation cs).1, (negation cs).2 ++ ending) := by
  unfold negation
  split
  · exact ⟨⟨['^'], rfl⟩, rfl⟩
  · rename_i hne
    refine ⟨⟨[], rfl⟩, ?_⟩
    cases cs with
    | nil => rfl
    | cons c cs =>
      have hc : c ≠ '^' := fun hc => hne cs (hc ▸ rfl)
      simp [hc]

theorem front_spec (cs : List Char) : (∃ used, cs = used ++ (front cs).2) ∧
    front (cs ++ ending) = ((front cs).1, (front cs).2 ++ ending) := by
  have hsplit := List.takeWhile_append_dropWhile (p := (· = '-')) (l := cs)
  unfold front
  rw [takeWhile_append_ending (by decide), dropWhile_append_ending (by decide)]
  generalize cs.takeWhile (· = '-') = hyphens, cs.dropWhile (· = '-') = cs' at hsplit
  subst hsplit
  cases hyphens with
  | cons c hyphens => exact ⟨⟨c :: hyphens, rfl⟩, rfl⟩
  | nil =>
    cases cs' with
    | nil => exact ⟨⟨[], rfl⟩, rfl⟩
    | cons c cs' =>
      by_cases hc : c = ']'
      · subst hc
        exact ⟨⟨[']'], rfl⟩, rfl⟩
      · exact ⟨⟨[], by simp [hc]⟩, by simp [hc]⟩

/-- A named class after its opening bracket and the colon. -/
def named (negated : Bool) (cs : List Char) : Option (CharClass × List Char) :=
  match cs.dropWhile (· ≠ ':') with
  | ':' :: ']' :: rest =>
    (named? (String.ofList (cs.takeWhile (· ≠ ':')))).map fun ranges =>
      let k : CharClass := { union (ranges.map fun r => range r.1 r.2) with nesting := 0 }
      (if negated then k.negate else k, rest)
  | _ => none

theorem ascii?_colon (cs : List Char) : ascii? (':' :: cs) = named (negation cs).1 (negation cs).2 := by
  have hread : ascii? (':' :: cs) = match (negation cs).2.dropWhile (· ≠ ':') with
    | ':' :: ']' :: rest =>
      (named? (String.ofList ((negation cs).2.takeWhile (· ≠ ':')))).bind fun ranges =>
        let k : CharClass := { union (ranges.map fun r => range r.1 r.2) with nesting := 0 }
        some (if (negation cs).1 then k.negate else k, rest)
    | _ => none := rfl
  rw [hread, named]
  split
  · rw [Option.map_eq_bind]
    rfl
  · rfl

theorem named_spec (negated : Bool) (cs : List Char) :
    (∀ {k rest}, named negated cs = some (k, rest) → ∃ used, cs = used ++ ']' :: rest) ∧
    named negated (cs ++ ending) = (named negated cs).map fun r => (r.1, r.2 ++ ending) := by
  by_cases hmem : ':' ∈ cs
  · obtain ⟨name, more, rfl, hname⟩ := List.eq_append_cons_of_mem hmem
    have hne : ∀ c ∈ name, (decide (c ≠ ':')) = true := fun c hc => decide_eq_true fun heq => hname (heq ▸ hc)
    have hdrop : ∀ more, (name ++ ':' :: more).dropWhile (· ≠ ':') = ':' :: more := fun more => by
      rw [List.dropWhile_append_of_pos hne, List.dropWhile_cons_of_neg (by simp)]
    have htake : ∀ more, (name ++ ':' :: more).takeWhile (· ≠ ':') = name := fun more => by
      rw [List.takeWhile_append_of_pos hne, List.takeWhile_cons_of_neg (by simp), List.append_nil]
    unfold named
    rw [List.append_assoc, List.cons_append, hdrop, hdrop, htake, htake]
    cases more with
    | nil => exact ⟨nofun, rfl⟩
    | cons c more =>
      by_cases hc : c = ']'
      · subst hc
        refine ⟨fun h => ?_, ?_⟩
        · obtain ⟨ranges, -, heq⟩ := Option.map_eq_some_iff.mp h
          cases heq
          exact ⟨name ++ [':'], by simp⟩
        · cases named? (String.ofList name) <;> simp
      · simp [hc]
  · have hdrop : ∀ more : List Char, ':' ∉ more → more.dropWhile (· ≠ ':') = [] := fun more hmore =>
      List.dropWhile_eq_nil_iff.mpr fun c hc => decide_eq_true fun heq => hmore (heq ▸ hc)
    unfold named
    rw [hdrop cs hmem, hdrop (cs ++ ending) (by simp [ending, hmem])]
    exact ⟨nofun, rfl⟩

theorem ascii?_spec (cs : List Char) :
    (∀ {k rest}, ascii? cs = some (k, rest) → ∃ used, cs = used ++ ']' :: rest) ∧
    ascii? (cs ++ ending) = (ascii? cs).map fun r => (r.1, r.2 ++ ending) := by
  cases cs with
  | nil => exact ⟨nofun, rfl⟩
  | cons c cs =>
    by_cases hc : c = ':'
    · subst hc
      obtain ⟨⟨used, hused⟩, hnegation⟩ := negation_spec cs
      obtain ⟨hsuffix, hread⟩ := named_spec (negation cs).1 (negation cs).2
      rw [List.cons_append, ascii?_colon, ascii?_colon, hnegation, hread]
      refine ⟨fun {k rest} h => ?_, rfl⟩
      obtain ⟨used', hused'⟩ := hsuffix h
      exact ⟨':' :: used ++ used', by rw [hused, hused']; simp⟩
    · simp [ascii?, hc]

/-- What a class reader with some fuel has read is what it reads with more of it and with an ending behind. -/
structure Settled (fuel : Nat) : Prop where
  read {cs rest : List Char} {k : CharClass} (h : read? fuel cs = some (k, rest)) :
    (∃ used, cs = used ++ ']' :: rest) ∧ ∀ fuel' ≥ fuel, read? fuel' (cs ++ ending) = some (k, rest ++ ending)
  readRest {p : Partial} {cs rest : List Char} {k : CharClass} (h : readRest? fuel p cs = some (k, rest)) :
    (∃ used, cs = used ++ ']' :: rest) ∧
      ∀ fuel' ≥ fuel, readRest? fuel' p (cs ++ ending) = some (k, rest ++ ending)

theorem settled (fuel : Nat) : Settled fuel := by
  induction fuel with
  | zero => exact ⟨nofun, nofun⟩
  | succ fuel ih =>
    refine ⟨fun {cs rest k} h => ?_, fun {p cs rest k} h => ?_⟩
    · rw [read?_succ] at h
      obtain ⟨⟨k', rest'⟩, hrest, heq⟩ := Option.map_eq_some_iff.mp h
      cases heq
      obtain ⟨⟨used, hused⟩, hnegation⟩ := negation_spec cs
      obtain ⟨⟨used', hused'⟩, hfront⟩ := front_spec (negation cs).2
      obtain ⟨⟨used'', hused''⟩, hmore⟩ := ih.readRest hrest
      refine ⟨⟨used ++ (used' ++ used''), by rw [hused, hused', hused'']; simp⟩, fun fuel' hfuel => ?_⟩
      obtain ⟨fuel', rfl⟩ : ∃ m, fuel' = m + 1 := ⟨fuel' - 1, by omega⟩
      rw [read?_succ, hnegation, hfront, hmore _ (by omega)]
      rfl
    · suffices hread : (∃ used, cs = used ++ ']' :: rest) ∧
          ∀ fuel' ≥ fuel, RestRead fuel' p (cs ++ ending) k (rest ++ ending) by
        refine ⟨hread.1, fun fuel' hfuel => ?_⟩
        obtain ⟨fuel', rfl⟩ : ∃ m, fuel' = m + 1 := ⟨fuel' - 1, by omega⟩
        exact readRest?_succ.mpr (hread.2 _ (by omega))
      cases readRest?_succ.mp h with
      | close => exact ⟨⟨[], rfl⟩, fun _ _ => .close⟩
      | @named cs cs' _ k' _ hname hrest =>
        obtain ⟨hsuffix, happend⟩ := ascii?_spec cs
        obtain ⟨used, rfl⟩ := hsuffix hname
        obtain ⟨⟨used', rfl⟩, hmore⟩ := ih.readRest hrest
        refine ⟨⟨'[' :: (used ++ ']' :: used'), by simp⟩, fun fuel' hfuel => ?_⟩
        rw [List.cons_append]
        refine .named ?_ (hmore fuel' hfuel)
        rw [happend, hname]
        rfl
      | @nested cs cs' _ k' _ hname hinner hrest =>
        obtain ⟨⟨used, rfl⟩, hread⟩ := ih.read hinner
        obtain ⟨⟨used', rfl⟩, hmore⟩ := ih.readRest hrest
        refine ⟨⟨'[' :: (used ++ ']' :: used'), by simp⟩, fun fuel' hfuel => ?_⟩
        rw [List.cons_append]
        refine .nested ?_ (hread fuel' hfuel) (hmore fuel' hfuel)
        rw [(ascii?_spec _).2, hname]
        rfl
      | @operation c _ cs _ _ hsign hrest =>
        obtain ⟨⟨used, rfl⟩, hmore⟩ := ih.readRest hrest
        refine ⟨⟨c :: c :: used, rfl⟩, fun fuel' hfuel => ?_⟩
        rw [List.cons_append, List.cons_append]
        exact .operation hsign (hmore fuel' hfuel)
      | @item c cs cs' _ k' _ hopens hcloses hplain hrange hrest =>
        obtain ⟨⟨used, -, heq⟩, hread⟩ := range?_eq_some hrange
        obtain ⟨⟨used', rfl⟩, hmore⟩ := ih.readRest hrest
        refine ⟨⟨used ++ used', by rw [heq]; simp⟩, fun fuel' hfuel => ?_⟩
        rw [List.cons_append] at hread ⊢
        refine .item hopens hcloses (fun hhead => ?_) hread (hmore fuel' hfuel)
        cases cs with
        | nil =>
          obtain rfl : ')' = c := Option.some.inj hhead
          rfl
        | cons d cs => exact hplain hhead

end CharClass

end RankedPlans
