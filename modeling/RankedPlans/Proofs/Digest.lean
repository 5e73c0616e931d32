import RankedPlans.Digest.Basic
import RankedPlans.Proofs.Text.Utf8
import RankedPlans.Text.Blank

/-! The bytes that a digest is taken of, and the text of a digest. A tag has its only zero byte at its end, so the bytes
tell where it ends: they determine the domain and the payload. The text has no white space. -/

namespace RankedPlans

namespace Domain

theorem tag_injective {d d' : Domain} (h : d.tag = d'.tag) : d = d' := by
  cases d <;> cases d' <;> first | rfl | exact absurd h (by decide)

theorem exists_name (d : Domain) : ∃ name, Utf8.encode d.tag = name ++ [0] ∧ 0 ∉ name := by
  refine ⟨(Utf8.encode d.tag).dropLast, ?_⟩
  cases d <;> decide +kernel

end Domain

namespace ContentHash

variable {d d' : Domain} {payload payload' : List UInt8}

/-- What is hashed for a payload in a domain. -/
def preimage (d : Domain) (payload : List UInt8) : List UInt8 :=
  Utf8.encode d.tag ++ payload

theorem takeWhile_tag {name rest : List UInt8} (h : 0 ∉ name) :
    (name ++ 0 :: rest).takeWhile (· != 0) = name := by
  have hne : ∀ b ∈ name, (b != 0) = true := fun b hb => bne_iff_ne.mpr (ne_of_mem_of_not_mem hb h)
  rw [List.takeWhile_append_of_pos hne]
  simp

/-- The bytes up to the first zero are the tag, and the others the payload. -/
theorem preimage_inj (h : preimage d payload = preimage d' payload') : d = d' ∧ payload = payload' := by
  obtain ⟨name, hd, hname⟩ := d.exists_name
  obtain ⟨name', hd', hname'⟩ := d'.exists_name
  simp only [preimage, hd, hd', List.append_assoc, List.singleton_append] at h
  obtain rfl : name = name' := by rw [← takeWhile_tag hname, h, takeWhile_tag hname']
  exact ⟨Domain.tag_injective (Utf8.encode_injective (hd.trans hd'.symm)),
    List.tail_eq_of_cons_eq (List.append_cancel_left h)⟩

theorem hexDigit_not_blank {n : Nat} (h : n < 16) : Text.isBlank (Json.hexDigit n) = false := by
  revert n
  decide

theorem hex_not_blank (bytes : List UInt8) : ∀ c ∈ (hex bytes).toList, Text.isBlank c = false := by
  rw [hex, String.toList_ofList]
  refine List.forall_mem_flatMap.mpr fun b _ => ?_
  have hb := b.toNat_lt
  simp only [List.forall_mem_cons]
  exact ⟨hexDigit_not_blank (by omega), hexDigit_not_blank (by omega), List.forall_mem_nil _⟩

/-- A text without white space has nothing to trim. -/
theorem trim_eq_self {s : String} (h : ∀ c ∈ s.toList, Text.isBlank c = false) : Text.trim s = s := by
  have hkeep : ∀ {cs : List Char}, (∀ c ∈ cs, Text.isBlank c = false) → cs.dropWhile Text.isBlank = cs := by
    intro cs hcs
    cases cs with
    | nil => rfl
    | cons c cs => rw [List.dropWhile_cons, hcs c List.mem_cons_self, if_neg Bool.false_ne_true]
  rw [Text.trim, hkeep h, hkeep fun c hc => h c (List.mem_reverse.mp hc), List.reverse_reverse, String.ofList_toList]

/-- The text of a digest is found again between white space. -/
theorem trim_lossy_text (domain : Domain) (payload : List UInt8) :
    Text.trim (Utf8.lossy (Utf8.encode (ofBytes domain payload).text)) = (ofBytes domain payload).text := by
  rw [Utf8.lossy_encode]
  refine trim_eq_self fun c hc => ?_
  simp only [text, ofBytes, String.toList_append, List.mem_append] at hc
  have hletters : ("sha256".toList ++ ":".toList).all (Text.isBlank · == false) = true := by decide
  rcases hc with hname | hhex
  · exact beq_iff_eq.mp (List.all_eq_true.mp hletters c (List.mem_append.mpr hname))
  · exact hex_not_blank _ c hhex

end ContentHash

end RankedPlans
