import Mathlib.Data.List.Permutation
import RankedPlans.Proofs.Task.Record
import RankedPlans.Proofs.Task.Validation

/-! Tasks and their texts. `Draft.Variant` relates task records that differ in nothing but the order of members, members
that are no fields and the order of facts in a list. Texts of such records hold the same task, whatever their white
space, and the canonical text of a task is one of its texts. -/

namespace RankedPlans

open Json.Written

section Variant

/-- Records of one fact. -/
def Fact.Variant : Json.Written → Json.Written → Prop :=
  RecordVariant [("var", Eq), ("value", Eq)]

/-- Records of one variable. -/
def Variable.Variant : Json.Written → Json.Written → Prop :=
  RecordVariant [("name", Eq), ("values", Eq)]

/-- Records of one operator, with its facts in any order. -/
def Operator.Variant : Json.Written → Json.Written → Prop :=
  RecordVariant [("name", Eq), ("cost", Eq), ("preconditions", Unordered Fact.Variant),
    ("effects", Unordered Fact.Variant)]

/-- Records of one task, with the facts of the goal in any order. -/
def Draft.Variant : Json.Written → Json.Written → Prop :=
  RecordVariant [("variables", Listed Variable.Variant), ("operators", Listed Operator.Variant), ("initial", Eq),
    ("goal", Unordered Fact.Variant)]

variable {w w' : Json.Written}

theorem Fact.read?_eq_of_variant (h : Variant w w') : read? w = read? w' := by
  refine rel_eq_iff.mp (rel_bind (h.rel_fields? rfl) fun xs xs' hxs => ?_)
  obtain _ | ⟨hvar, _ | ⟨hvalue, _ | _⟩⟩ := hxs
  rw [rel_eq_iff] at hvar hvalue
  rw [hvar, hvalue]
  exact rel_eq_iff.mpr rfl

theorem Variable.read?_eq_of_variant (h : Variant w w') : read? w = read? w' := by
  refine rel_eq_iff.mp (rel_bind (h.rel_fields? rfl) fun xs xs' hxs => ?_)
  obtain _ | ⟨hname, _ | ⟨hvalues, _ | _⟩⟩ := hxs
  rw [rel_eq_iff] at hname hvalues
  rw [hname, hvalues]
  exact rel_eq_iff.mpr rfl

/-- The facts read are the same but for their order. -/
theorem Fact.rel_list? (h : Unordered Variant w w') :
    Option.Rel List.Perm (list? read? w) (list? read? w') :=
  h.rel_list? fun _ _ => read?_eq_of_variant

theorem Operator.rel_read? (h : Variant w w') :
    Option.Rel (fun o o' => o.normalize = o'.normalize) (read? w) (read? w') := by
  refine rel_bind (h.rel_fields? rfl) fun xs xs' hxs => ?_
  obtain _ | ⟨hname, _ | ⟨hcost, _ | ⟨hpreconditions, _ | ⟨heffects, _ | _⟩⟩⟩⟩ := hxs
  rw [rel_eq_iff] at hname hcost
  rw [hname, hcost]
  refine rel_bind (rel_eq_iff.mpr rfl) fun name _ hname => ?_
  refine rel_bind (rel_eq_iff.mpr rfl) fun cost _ hcost => ?_
  refine rel_bind (rel_required? hpreconditions fun _ _ => Fact.rel_list?) fun _ _ hpreconditions => ?_
  refine rel_bind (rel_required? heffects fun _ _ => Fact.rel_list?) fun _ _ heffects => .some ?_
  simp only [normalize, hname, hcost, Fact.sort_eq_of_perm hpreconditions, Fact.sort_eq_of_perm heffects]

/-- Variants of a record are read as drafts of one normal form, or neither is read. -/
theorem Draft.rel_read? (h : Variant w w') :
    Option.Rel (fun d d' => d.normalize = d'.normalize) (read? w) (read? w') := by
  refine rel_bind (h.rel_fields? rfl) fun xs xs' hxs => ?_
  obtain _ | ⟨hvars, _ | ⟨hoperators, _ | ⟨hinitial, _ | ⟨hgoal, _ | _⟩⟩⟩⟩ := hxs
  rw [rel_eq_iff] at hinitial
  rw [hinitial]
  have hvariable v v' (h : Variable.Variant v v') := rel_eq_iff.mpr (Variable.read?_eq_of_variant h)
  refine rel_bind (rel_required? hvars fun _ _ h => h.rel_list? hvariable) fun _ _ hvars => ?_
  refine rel_bind (rel_required? hoperators fun _ _ h => h.rel_list? fun _ _ => Operator.rel_read?)
    fun _ _ hoperators => ?_
  refine rel_bind (rel_eq_iff.mpr rfl) fun initial _ hinitial => ?_
  refine rel_bind (rel_required? hgoal fun _ _ => Fact.rel_list?) fun _ _ hgoal => .some ?_
  rw [List.forall₂_eq_eq_eq] at hvars
  have hmap : List.map Operator.normalize _ = List.map Operator.normalize _ :=
    List.forall₂_eq_eq_eq ▸ List.forall₂_map_left_iff.mpr (List.forall₂_map_right_iff.mpr hoperators)
  simp only [normalize, hvars, hinitial, List.map_toArray, hmap, Fact.sort_eq_of_perm hgoal]

end Variant

namespace Task

variable {t : Task}

/-- A text holds what its tree reads as, whatever its white space. -/
theorem parse_of_spells {w : Json.Written} {text : String} (h : Json.Spells w text.toList) :
    parse text = ofLeading (some (w, [])) := by
  obtain ⟨bs, hbs, hread⟩ := leading?_of_spells h
  rw [parse, hread]
  simp only [ofLeading, onlyBlanks_iff.mpr hbs]
  rfl

/-- Variants of a record hold the same task. -/
theorem ofLeading_congr {w w' : Json.Written} {rest : List Char} (h : Draft.Variant w w') :
    ofLeading (some (w, rest)) = ofLeading (some (w', rest)) := by
  have hread := Draft.rel_read? h
  simp only [ofLeading]
  generalize Draft.read? w = draft? at hread ⊢
  generalize Draft.read? w' = draft?' at hread ⊢
  cases hread with
  | none => rfl
  | some hnormal => simp only [ofDraft_congr hnormal]

/-- What is read fits. -/
theorem fits_of_ofLeading {leading : Option (Json.Written × List Char)} (h : ofLeading leading = .ok t) : t.Fits := by
  unfold ofLeading at h
  split at h
  · cases h
  · split at h
    · cases h
    · rename_i draft hdraft
      split at h
      · cases h
      · rename_i t' ht'
        split at h
        · cases h
          exact ofDraft_eq_ok_iff.mp ht' ▸ (Draft.read?_fits hdraft).normalize
        · cases h

theorem canonical?_toJson (h : t.Fits) : t.toJson.canonical? = .ok t.canonical := by
  have hwithin : t.toJson.Within 5 := Draft.toJson_within h
  exact hwithin.canonical?_eq_ok_iff.mpr ⟨Draft.not_hasFloat_toJson _, rfl⟩

/-- The canonical text of a task is one of its texts. -/
theorem parse_canonical (h : t.Fits) : parse t.canonical = .ok t := by
  have hwithin : t.toJson.Within 5 := Draft.toJson_within h
  have hfloat : ¬ t.toJson.sortKeys.HasFloat := fun hf =>
    Draft.not_hasFloat_toJson _ (hwithin.hasFloat_sortKeys.mp hf)
  rw [canonical, parse_of_spells (parse?_eq_some_iff.mp (Json.parse?_text hfloat))]
  have hread : Draft.read? t.toJson.sortKeys.written = some t.toDraft := Draft.read?_written h
  simp only [ofLeading, hread, ofDraft_toDraft]
  rfl

theorem ofBytes_encode (text : String) : ofBytes (Utf8.encode text) = parse text := by
  rw [ofBytes, parse, leadingBytes?, Utf8.text?_encode]

theorem ofBytes_encode_canonical (h : t.Fits) : ofBytes (Utf8.encode t.canonical) = .ok t := by
  rw [ofBytes_encode, parse_canonical h]

/-- Whatever the bytes of a task file, the bytes of its canonical text are another file of that task. -/
theorem ofBytes_canonical {bytes : List UInt8} (h : ofBytes bytes = .ok t) :
    ofBytes (Utf8.encode t.canonical) = .ok t :=
  ofBytes_encode_canonical (fits_of_ofLeading h)

/-- The bytes of a canonical text tell the task. -/
theorem eq_of_encode_canonical {t' : Task} (h : t.Fits) (h' : t'.Fits)
    (heq : Utf8.encode t.canonical = Utf8.encode t'.canonical) : t = t' := by
  have hread := ofBytes_encode_canonical h
  rw [heq, ofBytes_encode_canonical h'] at hread
  exact (Except.ok.inj hread).symm

/-- Task files round-trip: the canonical text of a task is read back as the task, whatever text it was read from; texts
of variants of a record hold the same task, with one canonical text and digest; and no two tasks share a canonical
text. -/
theorem text_faithful :
    (∀ t : Task, t.Fits → t.toJson.canonical? = .ok t.canonical ∧ parse t.canonical = .ok t) ∧
    (∀ (text : String) (t : Task), parse text = .ok t →
      ∃ t', parse t.canonical = .ok t' ∧ t' = t ∧ t'.digest = t.digest) ∧
    (∀ (text text' : String) (w w' : Json.Written), Json.Spells w text.toList → Json.Spells w' text'.toList →
      Draft.Variant w w' → parse text = parse text' ∧
        ∀ t t', parse text = .ok t → parse text' = .ok t' → t.canonical = t'.canonical ∧ t.digest = t'.digest) ∧
    (∀ t t' : Task, t.Fits → t'.Fits → t.canonical = t'.canonical → t = t') := by
  refine ⟨fun t h => ⟨canonical?_toJson h, parse_canonical h⟩, fun text t h => ?_,
    fun text text' w w' hw hw' hvariant => ?_, fun t t' h h' heq => ?_⟩
  · exact ⟨t, parse_canonical (fits_of_ofLeading h), rfl, rfl⟩
  · have hparse : parse text = parse text' := by
      rw [parse_of_spells hw, parse_of_spells hw', ofLeading_congr hvariant]
    refine ⟨hparse, fun t t' ht ht' => ?_⟩
    rw [hparse, ht'] at ht
    cases ht
    exact ⟨rfl, rfl⟩
  · have hread := parse_canonical h
    rw [heq, parse_canonical h'] at hread
    exact (Except.ok.inj hread).symm

/-- Two variables whose names are escaped, and a goal of two facts. -/
def oddNames : Task where
  vars := #[⟨"\"", ["0"]⟩, ⟨"\n", ["0"]⟩]
  operators := #[]
  initial := #[0, 0]
  goal := [⟨0, 0⟩, ⟨1, 0⟩]
  normalized := by decide +kernel
  faultless := by decide +kernel

theorem oddNames_fits : oddNames.Fits := by
  refine ⟨List.forall_mem_nil _, by decide, ?_⟩
  simp only [oddNames, List.forall_mem_cons]
  exact ⟨⟨by decide, by decide⟩, ⟨by decide, by decide⟩, List.forall_mem_nil _⟩

/-- Its canonical text. -/
def oddNamesText : String :=
  "\x7b\"goal\":[\x7b\"value\":0,\"var\":0\x7d,\x7b\"value\":0,\"var\":1\x7d],\"initial\":[0,0],\"operators\":[]," ++
    "\"variables\":[\x7b\"name\":\"\\\"\",\"values\":[\"0\"]\x7d,\x7b\"name\":\"\\n\",\"values\":[\"0\"]\x7d]\x7d"

/-- Another text of it, with white space, the members and the facts of the goal in another order, and a note. -/
def oddNamesNoted : String :=
  "\x7b \"operators\" : [], \"note\": 1e9,\n" ++
    "\"goal\":[\x7b\"var\":1,\"value\":0\x7d,\x7b\"value\":0,\"var\":0\x7d],\t\"initial\":[0, 0]," ++
    "\"variables\":[\x7b\"name\":\"\\\"\",\"values\":[\"0\"]\x7d,\x7b\"name\":\"\\n\",\"values\":[\"0\"]\x7d]\x7d"

/-- A literal of one digit. -/
def digit (d : Nat) : Json.Written :=
  .number ⟨false, [d], [], none⟩

/-- The variables in both texts. -/
def oddNamesVariables : Json.Written :=
  .array [plain [("name", .string [.char '"']), ("values", .array [.string [.char '0']])],
    plain [("name", .string [.char '\n']), ("values", .array [.string [.char '0']])]]

/-- The goal in the canonical text. -/
def oddNamesGoal : Json.Written :=
  .array [plain [("value", digit 0), ("var", digit 0)], plain [("value", digit 0), ("var", digit 1)]]

/-- The goal in the other text. -/
def oddNamesGoalTurned : Json.Written :=
  .array [plain [("var", digit 1), ("value", digit 0)], plain [("value", digit 0), ("var", digit 0)]]

theorem parse?_oddNamesText : Json.Written.parse? oddNamesText =
    some (plain [("goal", oddNamesGoal), ("initial", .array [digit 0, digit 0]), ("operators", .array []),
      ("variables", oddNamesVariables)]) := by
  cbv

theorem parse?_oddNamesNoted : Json.Written.parse? oddNamesNoted =
    some (plain [("operators", .array []), ("note", .number ⟨false, [1], [], some (false, [9])⟩),
      ("goal", oddNamesGoalTurned), ("initial", .array [digit 0, digit 0]), ("variables", oddNamesVariables)]) := by
  cbv

theorem text_faithful_oddNames : oddNames.canonical = oddNamesText ∧ parse oddNamesText = .ok oddNames ∧
    parse oddNamesNoted = .ok oddNames := by
  obtain ⟨hround, -, hvariants, -⟩ := text_faithful
  have hcanonical : oddNames.canonical = oddNamesText := by decide +kernel
  have hread := (hround oddNames oddNames_fits).2
  rw [hcanonical] at hread
  have hvariables : Listed Variable.Variant oddNamesVariables oddNamesVariables :=
    .array (.cons (.plain (by simp [given])) (.cons (.plain (by simp [given])) .nil))
  have hgoal : Unordered Fact.Variant oddNamesGoal oddNamesGoalTurned :=
    .array (.swap _ _ _) (.cons (.plain (by simp [given])) (.cons (.plain (by simp [given])) .nil))
  have hoperators : Listed Operator.Variant (.array []) (.array []) := .array .nil
  have hsame := (hvariants _ _ _ _ (parse?_eq_some_iff.mp parse?_oddNamesText)
    (parse?_eq_some_iff.mp parse?_oddNamesNoted) (.plain (by simp [given, hvariables, hgoal, hoperators]))).1
  exact ⟨hcanonical, hread, hsame ▸ hread⟩

end Task

end RankedPlans
