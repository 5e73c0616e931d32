import RankedPlans.Json.Printer
import RankedPlans.Json.Reader
import RankedPlans.Proofs.Json.Grammar

/-! The printed text of a value as a text of the grammar: `Json.written v` is the tree that `Json.chars v` spells, and
its literals and strings stand for the integers and strings of `v`. -/

namespace RankedPlans.Json

section Integers

namespace Numeral

/-- The decimal digits of a number. -/
def decimals (n : Nat) : List Nat :=
  if n < 10 then [n] else decimals (n / 10) ++ [n % 10]

/-- The literal of an integer. -/
def ofInt (i : Int) : Numeral :=
  ⟨i < 0, decimals i.natAbs, [], none⟩

theorem toDigits_eq (n : Nat) : Nat.toDigits 10 n = digitChars (decimals n) := by
  fun_induction decimals n with
  | case1 n h => exact Nat.toDigits_of_lt_base h
  | case2 n h ih =>
    rw [Nat.toDigits_of_base_le (by decide) (by omega), ih]
    simp [digitChars]

theorem ofDigits_decimals (n : Nat) : ofDigits (decimals n) = n := by
  fun_induction decimals n with
  | case1 n h => simp [ofDigits]
  | case2 n h ih =>
    rw [ofDigits, List.foldl_append, ← ofDigits, ih]
    simp only [List.foldl_cons, List.foldl_nil]
    omega

theorem isDigits_decimals (n : Nat) : IsDigits (decimals n) := by
  fun_induction decimals n with
  | case1 n h => exact ⟨by simpa using h, by simp⟩
  | case2 n h ih =>
    refine ⟨fun d hd => ?_, by simp⟩
    rcases List.mem_append.mp hd with hd | hd
    · exact ih.lt_ten d hd
    · obtain rfl := List.mem_singleton.mp hd
      omega

theorem decimals_head (n : Nat) (h : (decimals n).head? = some 0) : decimals n = [0] := by
  fun_induction decimals n with
  | case1 n => simpa using h
  | case2 n hn ih =>
    obtain ⟨d, ds, hds⟩ := List.exists_cons_of_ne_nil (isDigits_decimals (n / 10)).ne_nil
    rw [hds, List.cons_append] at h
    rw [hds] at ih
    have hdiv := ofDigits_decimals (n / 10)
    rw [hds, ih h] at hdiv
    simp only [ofDigits, List.foldl_cons, List.foldl_nil] at hdiv
    omega

theorem numeralText_ofInt (i : Int) : NumeralText (ofInt i) (chars (.integer i)) := by
  have h : NumeralText (ofInt i)
      ((if decide (i < 0) then ['-'] else []) ++ digitChars (decimals i.natAbs) ++ [] ++ []) :=
    .mk (isDigits_decimals _) (decimals_head _) .none .none
  rw [List.append_nil, List.append_nil, ← toDigits_eq] at h
  cases i with
  | ofNat n =>
    rw [if_neg (by simp)] at h
    exact h
  | negSucc n => simpa [chars, Int.negSucc_lt_zero] using h

theorem integer?_ofInt {i : Int} (hlow : int64Min ≤ i) (hhigh : i ≤ nat64Max) : (ofInt i).integer? = some i := by
  simp only [integer?, ofInt, ofDigits_decimals, decide_eq_true_eq]
  rw [if_neg (by simp)]
  split
  · rw [if_pos (by omega)]
    exact congrArg some (by omega)
  · rw [if_pos (by omega)]
    exact congrArg some (by omega)

end Numeral

end Integers

section Strings

namespace Piece

/-- The piece that a character is written as. -/
def ofChar (c : Char) : Piece :=
  if c.toNat < 0x20 ∧ c ∉ ['\n', '\t', '\r', '\x08', '\x0c'] then .unit c.toNat else .char c

theorem hexDigit?_hexDigit {n : Nat} (h : n < 16) : Written.hexDigit? (hexDigit n) = some n := by
  decide +revert

theorem piecesText_escaped (c : Char) {ps : List Piece} {cs : List Char} (h : PiecesText ps cs) :
    PiecesText (ofChar c :: ps) (escaped c ++ cs) := by
  unfold escaped
  split
  case h_8 hquote hbackslash hlf htab hcr hbs hff =>
    split
    · rename_i hcontrol
      have hunit := PiecesText.unit (a := '0') (b := '0') (x := 0) (y := 0) rfl rfl
        (hexDigit?_hexDigit (n := c.toNat / 16) (by omega)) (hexDigit?_hexDigit (n := c.toNat % 16) (by omega)) h
      have hcode : 0 * 4096 + 0 * 256 + c.toNat / 16 * 16 + c.toNat % 16 = c.toNat := by omega
      rw [hcode] at hunit
      rw [ofChar, if_pos ⟨hcontrol, by simpa using ⟨hlf, htab, hcr, hbs, hff⟩⟩]
      exact hunit
    · rename_i hplain
      rw [ofChar, if_neg (fun h => hplain h.1)]
      exact .plain (Nat.le_of_not_lt hplain) hquote hbackslash h
  all_goals exact .escape (by decide) h

/-- A unit below the surrogates is a character of its own. -/
theorem decode?_unit {code : Nat} (h : code < 0xD800) (ps : List Piece) :
    decode? (.unit code :: ps) = (decode? ps).map (Char.ofNat code :: ·) := by
  have hhigh : ¬ (0xD800 ≤ code ∧ code < 0xDC00) := by omega
  have hlow : ¬ (0xDC00 ≤ code ∧ code < 0xE000) := by omega
  have heither : ¬ (0xD800 ≤ code ∧ code < 0xE000) := by omega
  cases ps with
  | nil => simp only [decode?, if_neg heither]
  | cons p ps => cases p <;> simp only [decode?, if_neg hhigh, if_neg hlow, if_neg heither]

theorem decode?_cons_ofChar (c : Char) {ps : List Piece} {cs : List Char} (h : decode? ps = some cs) :
    decode? (ofChar c :: ps) = some (c :: cs) := by
  unfold ofChar
  split
  · rw [decode?_unit (by omega), h, Option.map_some, Char.ofNat_toNat]
  · simp [decode?, h]

/-- Pieces that stand for one character each give the text of these characters. -/
theorem text?_map {piece : Char → Piece}
    (hpiece : ∀ c ps cs, decode? ps = some cs → decode? (piece c :: ps) = some (c :: cs)) (s : String) :
    text? (s.toList.map piece) = some s := by
  have h (cs : List Char) : decode? (cs.map piece) = some cs := by
    induction cs with
    | nil => rfl
    | cons c cs ih => exact hpiece c _ cs ih
  rw [text?, h]
  exact congrArg some String.ofList_toList

theorem text?_map_ofChar (s : String) : text? (s.toList.map ofChar) = some s :=
  text?_map (fun c _ _ => decode?_cons_ofChar c) s

end Piece

end Strings

section Values

/-- What holds of a value if it holds of all items and members holds of every value. -/
@[induction_eliminator]
theorem induction {motive : Json → Prop} (null : motive null) (bool : ∀ b, motive (bool b))
    (integer : ∀ n, motive (integer n)) (float : ∀ x, motive (float x)) (string : ∀ s, motive (string s))
    (array : ∀ items, (∀ v ∈ items, motive v) → motive (array items))
    (object : ∀ members, (∀ m ∈ members, motive m.2) → motive (object members)) (v : Json) : motive v :=
  @Json.rec motive (fun items => ∀ v ∈ items, motive v) (fun members => ∀ m ∈ members, motive m.2)
    (fun m => motive m.2) null bool integer float string array object (by simp)
    (fun _ _ hv hitems => List.forall_mem_cons.mpr ⟨hv, hitems⟩) (by simp)
    (fun _ _ hm hmembers => List.forall_mem_cons.mpr ⟨hm, hmembers⟩) (fun _ _ hv => hv) v

/-- A floating-point number is somewhere in the value. -/
inductive HasFloat : Json → Prop where
  | float (x : Float) : HasFloat (.float x)
  | item {v : Json} {items : List Json} (mem : v ∈ items) (h : HasFloat v) : HasFloat (.array items)
  | member {m : String × Json} {members : List (String × Json)} (mem : m ∈ members) (h : HasFloat m.2) :
      HasFloat (.object members)

mutual

/-- The tree that the text of a value spells, for values without floating-point numbers. -/
def written : Json → Written
  | null => .null
  | bool b => .bool b
  | integer n => .number (.ofInt n)
  | float _ => .null
  | string s => .string (s.toList.map .ofChar)
  | array items => .array (writtenItems items)
  | object members => .object (writtenMembers members)

/-- `written` on each item of an array. -/
def writtenItems : List Json → List Written
  | [] => []
  | v :: rest => written v :: writtenItems rest

/-- `written` on the key and the value of each member of an object. -/
def writtenMembers : List (String × Json) → List (List Piece × Written)
  | [] => []
  | (key, v) :: rest => (key.toList.map .ofChar, written v) :: writtenMembers rest

end

theorem writtenItems_eq_map (items : List Json) : writtenItems items = items.map written := by
  induction items with
  | nil => rfl
  | cons v items ih => rw [writtenItems, ih, List.map_cons]

theorem writtenMembers_eq_map (members : List (String × Json)) :
    writtenMembers members = members.map fun m => (m.1.toList.map .ofChar, written m.2) := by
  induction members with
  | nil => rfl
  | cons m members ih => rw [writtenMembers, ih, List.map_cons]

theorem piecesText_map_ofChar (cs : List Char) : PiecesText (cs.map .ofChar) (cs.flatMap escaped) := by
  induction cs with
  | nil => exact .nil
  | cons c cs ih => exact Piece.piecesText_escaped c ih

theorem quoted_eq (s : String) (rest : List Char) :
    quoted s ++ rest = '"' :: (s.toList.flatMap escaped ++ '"' :: rest) := by
  simp [quoted]

theorem spells_written {v : Json} (h : ValueText (written v) (chars v)) : Spells (written v) (chars v) := by
  have hspells : Spells (written v) ([] ++ (chars v ++ [])) := .spaced .nil h .nil
  rwa [List.nil_append, List.append_nil] at hspells

theorem keyText_quoted (key : String) : KeyText (key.toList.map .ofChar) (quoted key) := by
  have hkey : KeyText (key.toList.map .ofChar) ([] ++ '"' :: (key.toList.flatMap escaped ++ '"' :: [])) :=
    .spaced .nil (piecesText_map_ofChar key.toList) .nil
  rwa [List.nil_append, ← quoted_eq, List.append_nil] at hkey

theorem exists_itemsText {items : List Json} (hne : items ≠ []) (h : ∀ v ∈ items, ValueText (written v) (chars v)) :
    ∃ cs, itemChars items = cs ++ [']'] ∧ ItemsText (writtenItems items) cs := by
  induction items with
  | nil => exact absurd rfl hne
  | cons v items ih =>
    have hv := spells_written (h v (by simp))
    cases items with
    | nil => exact ⟨chars v, rfl, .last hv⟩
    | cons w items =>
      obtain ⟨cs, hcs, hitems⟩ := ih (by simp) fun v hv => h v (by simp [hv])
      refine ⟨chars v ++ ',' :: cs, ?_, .cons hv hitems⟩
      rw [itemChars, hcs]
      · simp
      · simp

theorem exists_membersText {members : List (String × Json)} (hne : members ≠ [])
    (h : ∀ m ∈ members, ValueText (written m.2) (chars m.2)) :
    ∃ cs, memberChars members = cs ++ ['\x7d'] ∧ MembersText (writtenMembers members) cs := by
  induction members with
  | nil => exact absurd rfl hne
  | cons m members ih =>
    obtain ⟨key, v⟩ := m
    have hv := spells_written (h (key, v) (by simp))
    cases members with
    | nil => exact ⟨quoted key ++ ':' :: chars v, by simp [memberChars], .last (keyText_quoted key) hv⟩
    | cons w members =>
      obtain ⟨cs, hcs, hmembers⟩ := ih (by simp) fun m hm => h m (by simp [hm])
      refine ⟨quoted key ++ ':' :: (chars v ++ ',' :: cs), ?_, .cons (keyText_quoted key) hv hmembers⟩
      rw [memberChars, hcs]
      · simp
      · simp

/-- The printed text spells the tree. -/
theorem valueText_written {v : Json} (h : ¬ HasFloat v) : ValueText (written v) (chars v) := by
  induction v with
  | null => exact .null
  | bool b => cases b <;> constructor
  | integer n => exact .number (Numeral.numeralText_ofInt n)
  | float x => exact absurd (.float x) h
  | string s => exact .string (piecesText_map_ofChar s.toList)
  | array items ih =>
    have hitems v (hv : v ∈ items) := ih v hv fun hfloat => h (.item hv hfloat)
    rw [written, chars]
    by_cases hne : items = []
    · subst hne
      exact ValueText.emptyArray Blanks.nil
    · obtain ⟨cs, hcs, htext⟩ := exists_itemsText hne hitems
      rw [hcs]
      exact .array htext
  | object members ih =>
    have hmembers m (hm : m ∈ members) := ih m hm fun hfloat => h (.member hm hfloat)
    rw [written, chars]
    by_cases hne : members = []
    · subst hne
      exact ValueText.emptyObject Blanks.nil
    · obtain ⟨cs, hcs, htext⟩ := exists_membersText hne hmembers
      rw [hcs]
      exact .object htext

end Values

end RankedPlans.Json
