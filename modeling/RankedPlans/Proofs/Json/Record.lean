import Mathlib.Data.List.Forall2
import RankedPlans.Json.Record
import RankedPlans.Proofs.Json.Canonical

/-! Reading records. A record reads the values given for its fields and nothing else of an object: neither the order of
the members nor a member that is no field leaves a trace. `RecordVariant` relates the records that can only differ so,
and a printed record is read back field by field. -/

namespace RankedPlans.Json.Written

section Related

variable {α β γ δ : Type} {R : α → β → Prop} {S : γ → δ → Prop}

theorem rel_bind {x : Option α} {y : Option β} {f : α → Option γ} {g : β → Option δ} (h : Option.Rel R x y)
    (hfg : ∀ a b, R a b → Option.Rel S (f a) (g b)) : Option.Rel S (x.bind f) (y.bind g) := by
  cases h with
  | none => exact .none
  | some h => exact hfg _ _ h

theorem rel_eq_iff {x y : Option α} : Option.Rel Eq x y ↔ x = y := by
  refine ⟨fun h => ?_, fun h => h ▸ ?_⟩
  · cases h with
    | none => rfl
    | some h => rw [h]
  · cases x with
    | none => exact .none
    | some a => exact .some rfl

theorem rel_mapM {xs : List α} {ys : List β} {f : α → Option γ} {g : β → Option δ} (h : List.Forall₂ R xs ys)
    (hfg : ∀ a b, R a b → Option.Rel S (f a) (g b)) : Option.Rel (List.Forall₂ S) (xs.mapM f) (ys.mapM g) := by
  induction h with
  | nil => exact .some .nil
  | cons hab _ ih =>
    rw [List.mapM_cons, List.mapM_cons]
    exact rel_bind (hfg _ _ hab) fun _ _ hcd => rel_bind ih fun _ _ hrest => .some (.cons hcd hrest)

theorem getElem_map_eq {f : α → γ} {g : β → γ} {xs : List α} {ys : List β} (heq : xs.map f = ys.map g) {i : Nat}
    (h : i < xs.length) (h' : i < ys.length) : f xs[i] = g ys[i] := by
  have hi := congrArg (·[i]?) heq
  simpa only [List.getElem?_map, List.getElem?_eq_getElem h, List.getElem?_eq_getElem h', Option.map_some,
    Option.some.injEq] using hi

theorem mapM_eq_some_iff {xs : List α} {ys : List γ} {f : α → Option γ} :
    xs.mapM f = some ys ↔ List.Forall₂ (fun a b => f a = some b) xs ys := by
  refine ⟨fun h => ?_, fun h => ?_⟩
  · induction xs generalizing ys with
    | nil =>
      cases h
      exact .nil
    | cons a xs ih =>
      rw [List.mapM_cons] at h
      obtain ⟨b, hb, h⟩ := Option.bind_eq_some_iff.mp h
      obtain ⟨bs, hbs, h⟩ := Option.bind_eq_some_iff.mp h
      cases h
      exact .cons hb (ih hbs)
  · induction h with
    | nil => rfl
    | cons hab _ ih =>
      rw [List.mapM_cons, hab, ih]
      rfl

theorem mapM_congr {xs : List α} {f g : α → Option γ} (h : ∀ a ∈ xs, f a = g a) : xs.mapM f = xs.mapM g := by
  induction xs with
  | nil => rfl
  | cons a xs ih =>
    rw [List.forall_mem_cons] at h
    rw [List.mapM_cons, List.mapM_cons, h.1, ih h.2]

/-- Items in another order give results in another order. -/
theorem rel_mapM_perm {xs ys : List α} {f : α → Option γ} (h : xs.Perm ys) :
    Option.Rel List.Perm (xs.mapM f) (ys.mapM f) := by
  induction h with
  | nil => exact .some .nil
  | cons a _ ih =>
    rw [List.mapM_cons, List.mapM_cons]
    exact rel_bind (rel_eq_iff.mpr rfl) fun b _ hb => rel_bind ih fun _ _ hrest => .some (hb ▸ hrest.cons b)
  | swap a b rest =>
    simp only [List.mapM_cons]
    cases f a <;> cases f b <;> cases rest.mapM f <;> first | exact .none | exact .some (.swap _ _ _)
  | trans _ _ ih ih' =>
    revert ih ih'
    generalize List.mapM f _ = x, List.mapM f _ = y, List.mapM f _ = z
    rintro (h | _) (h' | _)
    · exact .some (h.trans h')
    · exact .none

end Related

section Members

variable {fields : List Field} {name : String}

/-- The members of an object with their keys as texts. -/
def keyed? (members : List (List Piece × Written)) : Option (List (String × Written)) :=
  members.mapM fun m => (Piece.text? m.1).map (·, m.2)

/-- The values given for a name, in their order. -/
def given (name : String) (members : List (String × Written)) : List Written :=
  (members.filter (·.1 = name)).map Prod.snd

/-- The members that are fields. -/
def known (fields : List Field) (members : List (String × Written)) : List (String × Written) :=
  members.filter fun m => fields.any (·.name = m.1)

theorem keyed?_cons (key : List Piece) (v : Written) (members : List (List Piece × Written)) :
    keyed? ((key, v) :: members) = (Piece.text? key).bind fun key => (keyed? members).map ((key, v) :: ·) := by
  rw [keyed?, List.mapM_cons, ← keyed?]
  cases Piece.text? key <;> cases keyed? members <;> rfl

theorem known_cons (m : String × Written) (ms : List (String × Written)) :
    known fields (m :: ms) = if fields.any (·.name = m.1) then m :: known fields ms else known fields ms :=
  List.filter_cons

theorem knownMembers?_eq (members : List (List Piece × Written)) :
    knownMembers? fields members = (keyed? members).bind fun ms =>
      if ((known fields ms).map Prod.fst).Nodup then some (known fields ms) else none := by
  induction members with
  | nil => simp [knownMembers?, keyed?, known]
  | cons m members ih =>
    obtain ⟨key, v⟩ := m
    rw [knownMembers?, ih, keyed?_cons]
    cases Piece.text? key with
    | none => rfl
    | some key =>
      cases keyed? members with
      | none => rfl
      | some ms =>
        have hany (ms : List (String × Written)) : ms.any (·.1 = key) = true ↔ key ∈ ms.map Prod.fst := by simp
        simp only [Option.bind_eq_bind, Option.bind_some, Option.map_some]
        rw [known_cons]
        -- A field that is repeated further back is refused before this one is looked at.
        by_cases hnd : ((known fields ms).map Prod.fst).Nodup
        · rw [if_pos hnd, Option.bind_some]
          split
          · simp only [List.map_cons, List.nodup_cons, hnd, and_true, ite_not, hany]
          · rfl
        · rw [if_neg hnd, Option.bind_none]
          split
          · rw [List.map_cons, if_neg fun h => hnd (List.nodup_cons.mp h).2]
          · rfl

theorem mem_known {m : String × Written} {ms : List (String × Written)} :
    m ∈ known fields ms ↔ m ∈ ms ∧ ∃ f ∈ fields, f.name = m.1 := by
  simp [known]

theorem given_known {f : Field} (hf : f ∈ fields) (ms : List (String × Written)) :
    given f.name (known fields ms) = given f.name ms := by
  rw [given, given, known, List.filter_filter]
  refine congrArg _ (List.filter_congr fun m _ => ?_)
  rw [Bool.and_eq_left_iff_imp, decide_eq_true_eq]
  exact fun h => List.any_eq_true.mpr ⟨f, hf, by simp [h]⟩

theorem length_given (name : String) (ms : List (String × Written)) :
    (given name ms).length = (ms.map Prod.fst).count name := by
  rw [given, List.length_map, ← List.countP_eq_length_filter, List.count, List.countP_map]
  exact List.countP_congr fun m _ => by simp

theorem nodup_known_iff (ms : List (String × Written)) :
    ((known fields ms).map Prod.fst).Nodup ↔ ∀ f ∈ fields, (given f.name ms).length ≤ 1 := by
  rw [List.nodup_iff_count]
  refine ⟨fun h f hf => ?_, fun h name => ?_⟩
  · rw [← given_known hf, length_given]
    exact h f.name
  · by_cases hname : name ∈ (known fields ms).map Prod.fst
    · obtain ⟨m, hm, rfl⟩ := List.mem_map.mp hname
      obtain ⟨-, f, hf, hfm⟩ := mem_known.mp hm
      rw [← hfm, ← length_given, given_known hf]
      exact h f hf
    · rw [List.count_eq_zero_of_not_mem hname]
      exact Nat.zero_le 1

theorem lookup_eq_head? (name : String) (ms : List (String × Written)) :
    ms.lookup name = (given name ms).head? := by
  induction ms with
  | nil => rfl
  | cons m ms ih =>
    rw [List.lookup_cons, ih, given, given, List.filter_cons]
    by_cases h : m.1 = name
    · simp [h]
    · simp [h, beq_eq_false_iff_ne.mpr (Ne.symm h)]

/-- What an object gives for a field. -/
def fromObject (f : Field) : Option Written → Option (Option Written)
  | none => if f.presence = .required then none else some none
  | some v => some (some v)

/-- What an array gives for a field. -/
def fromArray (f : Field) : Option Written → Option (Option Written)
  | none => if f.presence = .defaulted then some none else none
  | some v => some (some v)

/-- An object gives the values of its fields, if none has several. -/
theorem fields?_object (members : List (List Piece × Written)) :
    fields? fields (.object members) = (keyed? members).bind fun ms =>
      if ∀ f ∈ fields, (given f.name ms).length ≤ 1 then
        fields.mapM fun f => fromObject f (given f.name ms).head?
      else none := by
  rw [fields?, knownMembers?_eq]
  cases keyed? members with
  | none => rfl
  | some ms =>
    simp only [Option.bind_eq_bind, Option.bind_some, nodup_known_iff]
    split
    · refine mapM_congr fun f hf => ?_
      rw [lookup_eq_head?, given_known hf]
      cases (given f.name ms).head? <;> cases hp : f.presence <;> simp [fromObject, hp]
    · rfl

/-- An array gives its items in the order of the fields. -/
theorem fields?_array (items : List Written) :
    fields? fields (.array items) =
      if fields.length < items.length then none
      else fields.zipIdx.mapM fun m => fromArray m.1 items[m.2]? := by
  rw [fields?]
  split
  · rfl
  · refine mapM_congr fun m _ => ?_
    obtain ⟨f, i⟩ := m
    dsimp only
    cases items[i]? <;> cases hp : f.presence <;> simp [fromArray, hp]

end Members

section Variant

/-- The fields of a record and how much their values may differ. -/
abbrev Tolerance := List (String × (Written → Written → Prop))

/-- Records that give the same for every field up to some tolerance. The order of the members of an object and the
members that are no fields do not matter. -/
inductive RecordVariant (fields : Tolerance) : Written → Written → Prop where
  | object {members members' : List (List Piece × Written)} {ms ms' : List (String × Written)}
      (read : keyed? members = some ms) (read' : keyed? members' = some ms')
      (same : ∀ f ∈ fields, List.Forall₂ f.2 (given f.1 ms) (given f.1 ms')) :
      RecordVariant fields (.object members) (.object members')
  | array {items items' : List Written} (length : items.length = items'.length)
      (same : ∀ (i : Nat) f, fields[i]? = some f → Option.Rel f.2 items[i]? items'[i]?) :
      RecordVariant fields (.array items) (.array items')

/-- Lists of related items. -/
inductive Listed (rel : Written → Written → Prop) : Written → Written → Prop where
  | array {items items' : List Written} (same : List.Forall₂ rel items items') :
      Listed rel (.array items) (.array items')

/-- Lists of related items in any order. -/
inductive Unordered (rel : Written → Written → Prop) : Written → Written → Prop where
  | array {items items' items'' : List Written} (perm : items.Perm items') (same : List.Forall₂ rel items' items'') :
      Unordered rel (.array items) (.array items'')

/-- Field by field the same up to the tolerance. -/
inductive Fieldwise : Tolerance → List (Option Written) → List (Option Written) → Prop where
  | nil : Fieldwise [] [] []
  | cons {f : String × (Written → Written → Prop)} {fields : Tolerance} {v v' : Option Written}
      {vs vs' : List (Option Written)} (value : Option.Rel f.2 v v') (rest : Fieldwise fields vs vs') :
      Fieldwise (f :: fields) (v :: vs) (v' :: vs')

variable {fields : Tolerance} {fs : List Field} {w w' : Written}

theorem rel_fromObject {rel : Written → Written → Prop} (f : Field) {v v' : Option Written} (h : Option.Rel rel v v') :
    Option.Rel (Option.Rel rel) (fromObject f v) (fromObject f v') := by
  cases h with
  | none =>
    simp only [fromObject]
    split
    · exact .none
    · exact .some .none
  | some h => exact .some (.some h)

theorem rel_fieldwise {α : Type} {xs : List α} {g g' : α → Option (Option Written)}
    (h : List.Forall₂ (fun a f => Option.Rel (Option.Rel f.2) (g a) (g' a)) xs fields) :
    Option.Rel (Fieldwise fields) (xs.mapM g) (xs.mapM g') := by
  induction h with
  | nil => exact .some .nil
  | cons hab _ ih =>
    rw [List.mapM_cons, List.mapM_cons]
    exact rel_bind hab fun _ _ hv => rel_bind ih fun _ _ hrest => .some (.cons hv hrest)

theorem rel_fromArray {rel : Written → Written → Prop} (f : Field) {v v' : Option Written} (h : Option.Rel rel v v') :
    Option.Rel (Option.Rel rel) (fromArray f v) (fromArray f v') := by
  cases h with
  | none =>
    simp only [fromArray]
    split
    · exact .some .none
    · exact .none
  | some h => exact .some (.some h)

theorem rel_head? {rel : Written → Written → Prop} {vs vs' : List Written} (h : List.Forall₂ rel vs vs') :
    Option.Rel rel vs.head? vs'.head? := by
  cases h with
  | nil => exact .none
  | cons h => exact .some h

/-- Variants of a record give the same for every field up to the tolerance. -/
theorem RecordVariant.rel_fields? (h : RecordVariant fields w w') (names : fs.map (·.name) = fields.map Prod.fst) :
    Option.Rel (Fieldwise fields) (w.fields? fs) (w'.fields? fs) := by
  have hlength : fs.length = fields.length := by simpa using congrArg List.length names
  cases h with
  | @object _ _ ms ms' read read' same =>
    rw [fields?_object, fields?_object, read, read', Option.bind_some, Option.bind_some]
    have hfield i (h : i < fs.length) (h' : i < fields.length) :
        List.Forall₂ fields[i].2 (given fs[i].name ms) (given fs[i].name ms') := by
      rw [getElem_map_eq names h h']
      exact same _ (List.getElem_mem h')
    have hone : (∀ f ∈ fs, (given f.name ms).length ≤ 1) ↔ ∀ f ∈ fs, (given f.name ms').length ≤ 1 := by
      refine forall₂_congr fun f hf => ?_
      obtain ⟨i, h, rfl⟩ := List.getElem_of_mem hf
      rw [(hfield i h (hlength ▸ h)).length_eq]
    simp only [hone]
    split
    · refine rel_fieldwise (List.forall₂_iff_get.mpr ⟨hlength, fun i h h' => ?_⟩)
      exact rel_fromObject _ (rel_head? (hfield i h h'))
    · exact .none
  | array length same =>
    rw [fields?_array, fields?_array, length]
    split
    · exact .none
    · refine rel_fieldwise (List.forall₂_iff_get.mpr ⟨by simpa using hlength, fun i h h' => ?_⟩)
      simp only [List.get_eq_getElem, List.getElem_zipIdx, Nat.zero_add]
      exact rel_fromArray _ (same i _ (List.getElem?_eq_getElem h'))

section Readers

variable {α β : Type} {rel : Written → Written → Prop} {S : α → α → Prop} {read? : Written → Option α}

theorem rel_required? {v v' : Option Written} (h : Option.Rel rel v v')
    (hread : ∀ w w', rel w w' → Option.Rel S (read? w) (read? w')) :
    Option.Rel S (required? read? v) (required? read? v') :=
  rel_bind h hread

theorem Listed.rel_list? (h : Listed rel w w') (hread : ∀ v v', rel v v' → Option.Rel S (read? v) (read? v')) :
    Option.Rel (List.Forall₂ S) (w.list? read?) (w'.list? read?) := by
  obtain ⟨same⟩ := h
  exact rel_mapM same hread

/-- Items read alike are the same items in another order. -/
theorem Unordered.rel_list? (h : Unordered rel w w') (hread : ∀ v v', rel v v' → read? v = read? v') :
    Option.Rel List.Perm (w.list? read?) (w'.list? read?) := by
  obtain ⟨perm, same⟩ := h
  have hsame := rel_mapM same fun v v' hv => rel_eq_iff.mpr (hread v v' hv)
  rw [List.forall₂_eq_eq_eq, rel_eq_iff] at hsame
  have hperm := rel_mapM_perm (f := read?) perm
  rwa [hsame] at hperm

theorem intWithin?_eq_some {low high n : Int} {w : Written} (h : intWithin? low high w = some n) :
    low ≤ n ∧ n ≤ high := by
  unfold intWithin? at h
  split at h
  · simpa using (Option.filter_eq_some_iff.mp h).2
  · cases h

theorem nat32?_le {w : Written} {n : Nat} (h : nat32? w = some n) : n ≤ nat32Max := by
  obtain ⟨i, hi, rfl⟩ := Option.map_eq_some_iff.mp h
  obtain ⟨hlow, hhigh⟩ := intWithin?_eq_some hi
  omega

theorem nat64?_le {w : Written} {n : Nat} (h : nat64? w = some n) : n ≤ nat64Max := by
  obtain ⟨i, hi, rfl⟩ := Option.map_eq_some_iff.mp h
  obtain ⟨hlow, hhigh⟩ := intWithin?_eq_some hi
  omega

/-- What holds of every item that is read holds of all items of a list. -/
theorem list?_forall {α : Type} {P : α → Prop} {item? : Written → Option α} {w : Written} {xs : List α}
    (hitem : ∀ v x, item? v = some x → P x) (h : list? item? w = some xs) : ∀ x ∈ xs, P x := by
  unfold list? at h
  split at h
  · intro x hx
    obtain ⟨hlength, hget⟩ := List.forall₂_iff_get.mp (mapM_eq_some_iff.mp h)
    obtain ⟨i, hi, rfl⟩ := List.getElem_of_mem hx
    exact hitem _ _ (hget i (hlength ▸ hi) hi)
  · cases h

theorem required?_forall {α : Type} {P : α → Prop} {value? : Written → Option α} {v : Option Written} {a : α}
    (hvalue : ∀ w a, value? w = some a → P a) (h : required? value? v = some a) : P a := by
  obtain ⟨w, -, hw⟩ := Option.bind_eq_some_iff.mp h
  exact hvalue w a hw

end Readers

section Plain

/-- An object whose keys are written without escapes. -/
def plain (ms : List (String × Written)) : Written :=
  .object (ms.map fun m => (m.1.toList.map .char, m.2))

theorem text?_map_char (s : String) : Piece.text? (s.toList.map .char) = some s :=
  Piece.text?_map (fun c ps cs h => by rw [Piece.decode?, h]; rfl) s

theorem keyed?_plain (ms : List (String × Written)) :
    keyed? (ms.map fun m => (m.1.toList.map .char, m.2)) = some ms := by
  refine (mapM_map_eq_some fun m _ => ?_).trans (congrArg some (List.map_id ms))
  rw [text?_map_char]
  rfl

theorem RecordVariant.plain {ms ms' : List (String × Written)}
    (same : ∀ f ∈ fields, List.Forall₂ f.2 (given f.1 ms) (given f.1 ms')) :
    RecordVariant fields (plain ms) (plain ms') :=
  .object (keyed?_plain ms) (keyed?_plain ms') same

end Plain

end Variant

section Printed

variable {fields : List Field} {members : List (String × Json)}

theorem keyed?_writtenMembers (members : List (String × Json)) :
    keyed? (writtenMembers members) = some (members.map fun m => (m.1, m.2.written)) := by
  rw [keyed?, writtenMembers_eq_map]
  refine mapM_map_eq_some fun m _ => ?_
  rw [Piece.text?_map_ofChar]
  rfl

theorem length_given_le_one {ms : List (String × Written)} (hnd : (ms.map Prod.fst).Nodup) (name : String) :
    (given name ms).length ≤ 1 :=
  length_given name ms ▸ List.nodup_iff_count.mp hnd name

theorem given_eq_singleton {name : String} {v : Written} {ms : List (String × Written)}
    (hnd : (ms.map Prod.fst).Nodup) (h : (name, v) ∈ ms) : given name ms = [v] := by
  have hv : v ∈ given name ms := List.mem_map.mpr ⟨(name, v), by simpa using h, rfl⟩
  have hlength := length_given_le_one hnd name
  match given name ms, hv, hlength with
  | [_], hv, _ => rw [List.mem_singleton.mp hv]

/-- A printed record is read back field by field. -/
theorem fields?_written_sortKeys (names : fields.map (·.name) = members.map Prod.fst)
    (hnd : (members.map Prod.fst).Nodup) : fields? fields (Json.object members).sortKeys.written =
      some (members.map fun m => some m.2.sortKeys.written) := by
  have hsorted := Entries.nodup_of_pairwise (Entries.ofList_pairwise (map_fst_sortValues members ▸ hnd))
  rw [Json.sortKeys, written, fields?_object, keyed?_writtenMembers, Option.bind_some]
  have hnd' : (((Entries.ofList (sortValues members)).map fun m => (m.1, m.2.written)).map Prod.fst).Nodup := by
    rwa [List.map_map]
  have hone : ∀ f ∈ fields, (given f.name _).length ≤ 1 := fun f _ => length_given_le_one hnd' f.name
  rw [if_pos hone]
  refine mapM_eq_some_iff.mpr (List.forall₂_map_right_iff.mpr (List.forall₂_iff_get.mpr ⟨?_, fun i h h' => ?_⟩))
  · simpa using congrArg List.length names
  · have hname := getElem_map_eq names h h'
    have hmem := (mem_ofList_sortValues hnd).mpr ⟨members[i], List.getElem_mem h', rfl⟩
    rw [List.get_eq_getElem, List.get_eq_getElem, hname,
      given_eq_singleton hnd' (List.mem_map.mpr ⟨_, hmem, rfl⟩)]
    rfl

theorem intWithin?_written {low high n : Int} (hlow : low ≤ n) (hhigh : n ≤ high) (hmin : int64Min ≤ n)
    (hmax : n ≤ nat64Max) : intWithin? low high (Json.integer n).sortKeys.written = some n := by
  simp [sortKeys, written, intWithin?, Numeral.integer?_ofInt hmin hmax, hlow, hhigh]

theorem nat32?_written {n : Nat} (h : n ≤ nat32Max) : nat32? (Json.integer n).sortKeys.written = some n := by
  have hmax : (n : Int) ≤ nat64Max := by simp only [nat32Max, nat64Max] at *; omega
  have hmin : int64Min ≤ n := by simp only [int64Min]; omega
  rw [nat32?, intWithin?_written (Int.natCast_nonneg n) (Int.ofNat_le.mpr h) hmin hmax]
  rfl

theorem nat64?_written {n : Nat} (h : n ≤ nat64Max) : nat64? (Json.integer n).sortKeys.written = some n := by
  have hmax : (n : Int) ≤ nat64Max := Int.ofNat_le.mpr h
  have hmin : int64Min ≤ n := by simp only [int64Min]; omega
  rw [nat64?, intWithin?_written (Int.natCast_nonneg n) hmax hmin hmax]
  rfl

theorem int64?_written {n : Int} (low : int64Min ≤ n) (high : n ≤ int64Max) :
    int64? (Json.integer n).sortKeys.written = some n := by
  have hmax : n ≤ nat64Max := by simp only [int64Max, nat64Max] at *; omega
  exact intWithin?_written low high low hmax

theorem bool?_written (b : Bool) : bool? (Json.bool b).sortKeys.written = some b := by
  simp [sortKeys, written, bool?]

theorem string?_written (s : String) : string? (Json.string s).sortKeys.written = some s :=
  Piece.text?_map_ofChar s

/-- A value that is no null is read back from where null may stand. -/
theorem orNull?_eq_some {α : Type} {value? : Written → Option α} {w : Written} {a : α} (h : value? w = some a)
    (hnull : w ≠ .null) : orNull? value? w = some (some a) := by
  unfold orNull?
  split
  · exact absurd rfl hnull
  · rw [h]
    rfl

theorem list?_written {α : Type} {xs : List α} {toJson : α → Json} {item? : Written → Option α}
    (h : ∀ x ∈ xs, item? (toJson x).sortKeys.written = some x) :
    list? item? (Json.array (xs.map toJson)).sortKeys.written = some xs := by
  rw [sortKeys, sortItems_eq_map, written, writtenItems_eq_map, list?, List.map_map, List.map_map]
  exact (mapM_map_eq_some h).trans (congrArg some (List.map_id xs))

end Printed

end RankedPlans.Json.Written
