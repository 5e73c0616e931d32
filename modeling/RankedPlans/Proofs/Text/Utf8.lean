import RankedPlans.Text.Utf8

/-! Reading UTF-8 undoes writing it, and the order of characters is the order of their bytes, so texts are compared
alike either way. -/

namespace RankedPlans.Utf8

variable {c d : Char} {b : Nat} {rest : List UInt8}

theorem char_toNat_lt (c : Char) : c.toNat < 0x110000 ∧ (c.toNat < 0xD800 ∨ 0xDFFF < c.toNat) := by
  have h := c.valid
  simp only [UInt32.isValidChar, Nat.isValidChar] at h
  simp only [Char.toNat]
  omega

section Lead

theorem lead_one (h : b < 0x80) : lead b = .char (Char.ofNat b) := by
  simp [lead, h]

theorem lead_two (h : 0xC2 ≤ b) (h' : b < 0xE0) : lead b = .begun ⟨b - 0xC0, 0x80, 0xBF, 0⟩ := by
  grind [lead]

theorem lead_three (h : 0xE0 ≤ b) (h' : b < 0xF0) : lead b =
    .begun ⟨b - 0xE0, if b = 0xE0 then 0xA0 else 0x80, if b = 0xED then 0x9F else 0xBF, 1⟩ := by
  grind [lead]

theorem lead_four (h : 0xF0 ≤ b) (h' : b ≤ 0xF4) : lead b =
    .begun ⟨b - 0xF0, if b = 0xF0 then 0x90 else 0x80, if b = 0xF4 then 0x8F else 0xBF, 2⟩ := by
  grind [lead]

end Lead

section Decode

variable {byte : UInt8}

theorem decodeAfter_char (h : lead byte.toNat = .char c) :
    decodeAfter none (byte :: rest) = some c :: decodeAfter none rest := by
  simp only [decodeAfter, h]

theorem decodeAfter_begun {p : Begun} (h : lead byte.toNat = .begun p) :
    decodeAfter none (byte :: rest) = decodeAfter (some p) rest := by
  simp only [decodeAfter, h]

theorem decodeAfter_last {value low high : Nat} (h : low ≤ byte.toNat ∧ byte.toNat ≤ high) :
    decodeAfter (some ⟨value, low, high, 0⟩) (byte :: rest) =
      some (Char.ofNat (value * 64 + byte.toNat % 64)) :: decodeAfter none rest := by
  simp only [decodeAfter, if_pos h]

theorem decodeAfter_next {value low high later : Nat} (h : low ≤ byte.toNat ∧ byte.toNat ≤ high) :
    decodeAfter (some ⟨value, low, high, later + 1⟩) (byte :: rest) =
      decodeAfter (some ⟨value * 64 + byte.toNat % 64, 0x80, 0xBF, later⟩) rest := by
  simp only [decodeAfter, if_pos h]

theorem toNat_ofNat_of_lt (h : b < 256) : (UInt8.ofNat b).toNat = b := by
  simpa using h

/-- The bytes of a character are read as that character. -/
theorem decodeAfter_encodeChar (c : Char) (rest : List UInt8) :
    decodeAfter none (String.utf8EncodeChar c ++ rest) = some c :: decodeAfter none rest := by
  obtain ⟨hlt, hsurrogate⟩ := char_toNat_lt c
  have hc : Char.ofNat c.toNat = c := Char.ofNat_toNat c
  rw [← Char.toNat_val] at hlt hsurrogate hc
  unfold String.utf8EncodeChar
  generalize c.val.toNat = n at hlt hsurrogate hc
  dsimp only
  split
  · have hb := toNat_ofNat_of_lt (b := n) (by omega)
    exact decodeAfter_char (by rw [hb, lead_one (by omega), hc])
  · split
    · have hb := toNat_ofNat_of_lt (b := n / 64 % 32 + 0xC0) (by omega)
      have hb' := toNat_ofNat_of_lt (b := n % 64 + 0x80) (by omega)
      simp only [List.cons_append, List.nil_append]
      rw [decodeAfter_begun (by rw [hb, lead_two (by omega) (by omega)]), decodeAfter_last (by omega), hb', ← hc]
      congr 3
      omega
    · split
      · have hb := toNat_ofNat_of_lt (b := n / 4096 % 16 + 0xE0) (by omega)
        have hb' := toNat_ofNat_of_lt (b := n / 64 % 64 + 0x80) (by omega)
        have hb'' := toNat_ofNat_of_lt (b := n % 64 + 0x80) (by omega)
        simp only [List.cons_append, List.nil_append]
        rw [decodeAfter_begun (by rw [hb, lead_three (by omega) (by omega)]),
          decodeAfter_next (by split <;> split <;> omega), decodeAfter_last (by omega), hb', hb'', ← hc]
        congr 3
        omega
      · have hb := toNat_ofNat_of_lt (b := n / 262144 % 8 + 0xF0) (by omega)
        have hb' := toNat_ofNat_of_lt (b := n / 4096 % 64 + 0x80) (by omega)
        have hb'' := toNat_ofNat_of_lt (b := n / 64 % 64 + 0x80) (by omega)
        have hb₃ := toNat_ofNat_of_lt (b := n % 64 + 0x80) (by omega)
        simp only [List.cons_append, List.nil_append]
        rw [decodeAfter_begun (by rw [hb, lead_four (by omega) (by omega)]),
          decodeAfter_next (by split <;> split <;> omega), decodeAfter_next (by omega), decodeAfter_last (by omega),
          hb', hb'', hb₃, ← hc]
        congr 3
        omega

theorem decode_flatMap_encodeChar (cs : List Char) :
    decode (cs.flatMap String.utf8EncodeChar) = cs.map some := by
  induction cs with
  | nil => rfl
  | cons c cs ih =>
    rw [List.flatMap_cons, decode, decodeAfter_encodeChar, ← decode, ih]
    rfl

/-- The bytes of a text are read as that text. -/
theorem text?_encode (s : String) : text? (encode s) = some s := by
  have hall (cs : List Char) : (cs.map some).mapM id = some cs := by
    rw [List.mapM_map]
    exact List.mapM_pure.trans (congrArg some (List.map_id cs))
  rw [text?, encode, decode_flatMap_encodeChar, hall]
  exact congrArg some String.ofList_toList

/-- Nothing in the bytes of a text has to be replaced. -/
theorem lossy_encode (s : String) : lossy (encode s) = s := by
  rw [lossy, encode, decode_flatMap_encodeChar, List.map_map]
  exact (congrArg String.ofList (List.map_id s.toList)).trans String.ofList_toList

theorem encode_injective {s t : String} (h : encode s = encode t) : s = t := by
  have hs := text?_encode s
  rw [h, text?_encode] at hs
  exact (Option.some.inj hs).symm

end Decode

section Order

theorem ofNat_lt_ofNat {a b : Nat} (ha : a < 256) (hb : b < 256) :
    UInt8.ofNat a < UInt8.ofNat b ↔ a < b := by
  rw [UInt8.lt_iff_toNat_lt, toNat_ofNat_of_lt ha, toNat_ofNat_of_lt hb]

theorem ofNat_inj {a b : Nat} (ha : a < 256) (hb : b < 256) :
    UInt8.ofNat a = UInt8.ofNat b ↔ a = b := by
  rw [← UInt8.toNat_inj, toNat_ofNat_of_lt ha, toNat_ofNat_of_lt hb]

theorem div_or_mod_lt {n m : Nat} (h : n < m) : n / 64 < m / 64 ∨ n / 64 = m / 64 ∧ n % 64 < m % 64 := by
  omega

/-- The first byte at which the characters differ decides. -/
theorem encodeChar_append_lt (h : c < d) (rest rest' : List UInt8) :
    String.utf8EncodeChar c ++ rest < String.utf8EncodeChar d ++ rest' := by
  have hlt : c.val.toNat < d.val.toNat := h
  have hd : d.val.toNat < 0x110000 := (char_toNat_lt d).1
  unfold String.utf8EncodeChar
  generalize c.val.toNat = n at hlt
  generalize d.val.toNat = m at hlt hd
  -- The last three bytes hold the digits to base 64.
  have hlast := div_or_mod_lt hlt
  have hmiddle : n / 64 < m / 64 → _ := div_or_mod_lt
  have hfirst : n / 4096 < m / 4096 → _ := div_or_mod_lt
  simp only [Nat.div_div_eq_div_mul, Nat.reduceMul] at hmiddle hfirst
  have hn : n / 262144 % 8 = n / 262144 := Nat.mod_eq_of_lt (by omega)
  have hm : m / 262144 % 8 = m / 262144 := Nat.mod_eq_of_lt (by omega)
  dsimp only
  repeat' split
  all_goals
    simp only [List.cons_append, List.nil_append, List.cons_lt_cons_iff]
    simp (disch := omega) only [ofNat_lt_ofNat, ofNat_inj]
    omega

theorem flatMap_encodeChar_lt {cs ds : List Char} (h : cs < ds) :
    cs.flatMap String.utf8EncodeChar < ds.flatMap String.utf8EncodeChar := by
  induction h with
  | @nil d ds =>
    rw [List.flatMap_cons, List.flatMap_nil]
    cases hd : String.utf8EncodeChar d ++ ds.flatMap String.utf8EncodeChar with
    | nil => exact absurd hd (by simp [String.utf8EncodeChar_ne_nil])
    | cons b bs => exact List.nil_lt_cons b bs
  | rel h => exact encodeChar_append_lt h _ _
  | cons _ ih => exact List.append_left_lt ih

/-- Texts are ordered as their bytes are. -/
theorem encode_lt_iff {s t : String} : encode s < encode t ↔ s < t := by
  refine ⟨fun h => ?_, flatMap_encodeChar_lt⟩
  rcases Std.lt_trichotomy s t with hst | rfl | hts
  · exact hst
  · exact absurd h (List.lt_irrefl _)
  · exact absurd h (List.lt_asymm (flatMap_encodeChar_lt hts))

end Order

end RankedPlans.Utf8
