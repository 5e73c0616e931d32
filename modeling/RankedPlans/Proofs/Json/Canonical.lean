import Mathlib.Data.List.Forall2
import RankedPlans.Json.Bytes
import RankedPlans.Proofs.Digest
import RankedPlans.Proofs.Entries
import RankedPlans.Proofs.Json.Printer

/-! Canonical text is faithful: it is refused to the values with a floating-point number, by the first of these, every
other value is read back from it, and two values share it if they differ in nothing but the order of members. The bytes
that a digest is taken of therefore tell both the domain and the value. -/

namespace RankedPlans.Json

section Values

/-- A value of at most `depth` nested arrays and objects: its integers fit 64 bits, and no object has two members of one
key. -/
inductive Within : Nat → Json → Prop where
  | null {depth : Nat} : Within depth .null
  | bool {depth : Nat} (b : Bool) : Within depth (.bool b)
  | integer {depth : Nat} {n : Int} (low : int64Min ≤ n) (high : n ≤ nat64Max) : Within depth (.integer n)
  | float {depth : Nat} (x : Float) : Within depth (.float x)
  | string {depth : Nat} (s : String) : Within depth (.string s)
  | array {depth : Nat} {items : List Json} (h : ∀ v ∈ items, Within depth v) : Within (depth + 1) (.array items)
  | object {depth : Nat} {members : List (String × Json)} (distinct : (members.map Prod.fst).Nodup)
      (h : ∀ m ∈ members, Within depth m.2) : Within (depth + 1) (.object members)

/-- Equality but for the order of the members of objects. -/
inductive Same : Json → Json → Prop where
  | refl (v : Json) : Same v v
  | symm {v w : Json} (h : Same v w) : Same w v
  | trans {v w x : Json} (h : Same v w) (h' : Same w x) : Same v x
  | items {items items' : List Json} (length : items.length = items'.length)
      (h : ∀ p ∈ items.zip items', Same p.1 p.2) : Same (.array items) (.array items')
  | values {members members' : List (String × Json)} (keys : members.map Prod.fst = members'.map Prod.fst)
      (h : ∀ p ∈ members.zip members', Same p.1.2 p.2.2) : Same (.object members) (.object members')
  | reordered {members members' : List (String × Json)} (distinct : (members.map Prod.fst).Nodup)
      (h : members.Perm members') : Same (.object members) (.object members')

/-- The first floating-point number, where items of arrays are visited in their order and members of objects in the
order of the bytes of their keys. -/
inductive FirstFloat : Json → Float → Prop where
  | float (x : Float) : FirstFloat (.float x) x
  | item {v : Json} {x : Float} {before after : List Json} (h : FirstFloat v x) (first : ∀ w ∈ before, ¬ HasFloat w) :
      FirstFloat (.array (before ++ v :: after)) x
  | member {m : String × Json} {x : Float} {members : List (String × Json)} (mem : m ∈ members) (h : FirstFloat m.2 x)
      (first : ∀ w ∈ members, Utf8.encode w.1 < Utf8.encode m.1 → ¬ HasFloat w.2) : FirstFloat (.object members) x

end Values

section SortKeys

variable {depth : Nat} {v w : Json}

theorem Within.array_map {α : Type} {depth : Nat} {xs : List α} {toJson : α → Json}
    (h : ∀ x ∈ xs, (toJson x).Within depth) : (Json.array (xs.map toJson)).Within (depth + 1) :=
  .array fun _ hv => by
    obtain ⟨x, hx, rfl⟩ := List.mem_map.mp hv
    exact h x hx

theorem within_nat32 {depth n : Nat} (h : n ≤ nat32Max) : (Json.integer n).Within depth :=
  .integer (by simp only [int64Min]; omega) (by simp only [nat32Max, nat64Max] at *; omega)

theorem within_nat64 {depth n : Nat} (h : n ≤ nat64Max) : (Json.integer n).Within depth :=
  .integer (by simp only [int64Min]; omega) (Int.ofNat_le.mpr h)

theorem within_int64 {depth : Nat} {n : Int} (low : int64Min ≤ n) (high : n ≤ int64Max) :
    (Json.integer n).Within depth :=
  .integer low (by simp only [int64Max, nat64Max] at *; omega)

theorem sortItems_eq_map (items : List Json) : sortItems items = items.map sortKeys := by
  induction items with
  | nil => rfl
  | cons v items ih => rw [sortItems, ih, List.map_cons]

theorem sortValues_eq_map (members : List (String × Json)) :
    sortValues members = members.map fun m => (m.1, sortKeys m.2) := by
  induction members with
  | nil => rfl
  | cons m members ih => rw [sortValues, ih, List.map_cons]

theorem map_fst_sortValues (members : List (String × Json)) :
    (sortValues members).map Prod.fst = members.map Prod.fst := by
  rw [sortValues_eq_map, List.map_map]
  rfl

/-- The members of a sorted object are the sorted members. -/
theorem mem_ofList_sortValues {members : List (String × Json)} (hnd : (members.map Prod.fst).Nodup)
    {m : String × Json} : m ∈ Entries.ofList (sortValues members) ↔ ∃ m' ∈ members, (m'.1, sortKeys m'.2) = m := by
  rw [(Entries.ofList_perm (by rwa [map_fst_sortValues])).mem_iff, sortValues_eq_map, List.mem_map]

theorem Within.sortKeys (h : Within depth v) : Within depth v.sortKeys := by
  induction h with
  | null => exact .null
  | bool b => exact .bool b
  | integer low high => exact .integer low high
  | float x => exact .float x
  | string s => exact .string s
  | array h ih =>
    rw [Json.sortKeys, sortItems_eq_map]
    exact .array fun v hv => by
      obtain ⟨w, hw, rfl⟩ := List.mem_map.mp hv
      exact ih w hw
  | object distinct h ih =>
    rw [Json.sortKeys]
    refine .object (Entries.nodup_of_pairwise (Entries.ofList_pairwise (by rwa [map_fst_sortValues]))) fun m hm => ?_
    obtain ⟨m', hm', rfl⟩ := (mem_ofList_sortValues distinct).mp hm
    exact ih m' hm'

theorem Within.sortKeys_sortKeys (h : Within depth v) : v.sortKeys.sortKeys = v.sortKeys := by
  induction h with
  | null | bool | integer | float | string => rfl
  | array h ih =>
    rw [Json.sortKeys, sortItems_eq_map, Json.sortKeys, sortItems_eq_map, List.map_map]
    exact congrArg _ (List.map_congr_left ih)
  | @object depth members distinct h ih =>
    have hnd : ((sortValues members).map Prod.fst).Nodup := by rwa [map_fst_sortValues]
    have hmap : sortValues (Entries.ofList (sortValues members)) = Entries.ofList (sortValues members) := by
      rw [sortValues_eq_map]
      refine (List.map_congr_left fun m hm => ?_).trans (List.map_id _)
      obtain ⟨m', hm', rfl⟩ := (mem_ofList_sortValues distinct).mp hm
      exact congrArg (Prod.mk m'.1) (ih m' hm')
    rw [Json.sortKeys, Json.sortKeys, hmap, Entries.ofList_eq_self (Entries.ofList_pairwise hnd)]

theorem hasFloat_array {items : List Json} : HasFloat (.array items) ↔ ∃ v ∈ items, HasFloat v :=
  ⟨fun h => by cases h with | item mem h => exact ⟨_, mem, h⟩, fun ⟨_, mem, h⟩ => .item mem h⟩

theorem hasFloat_object {members : List (String × Json)} :
    HasFloat (.object members) ↔ ∃ m ∈ members, HasFloat m.2 :=
  ⟨fun h => by cases h with | member mem h => exact ⟨_, mem, h⟩, fun ⟨_, mem, h⟩ => .member mem h⟩

theorem not_hasFloat_integer (n : Int) : ¬ HasFloat (.integer n) :=
  nofun

theorem not_hasFloat_string (s : String) : ¬ HasFloat (.string s) :=
  nofun

theorem not_hasFloat_bool (b : Bool) : ¬ HasFloat (.bool b) :=
  nofun

theorem Within.hasFloat_sortKeys (h : Within depth v) : HasFloat v.sortKeys ↔ HasFloat v := by
  induction h with
  | null | bool | integer | float | string => rfl
  | array h ih =>
    rw [Json.sortKeys, sortItems_eq_map, hasFloat_array, hasFloat_array]
    refine ⟨fun ⟨v, hv, hfloat⟩ => ?_, fun ⟨v, hv, hfloat⟩ => ?_⟩
    · obtain ⟨w, hw, rfl⟩ := List.mem_map.mp hv
      exact ⟨w, hw, (ih w hw).mp hfloat⟩
    · exact ⟨_, List.mem_map_of_mem hv, (ih v hv).mpr hfloat⟩
  | object distinct h ih =>
    rw [Json.sortKeys, hasFloat_object, hasFloat_object]
    refine ⟨fun ⟨m, hm, hfloat⟩ => ?_, fun ⟨m, hm, hfloat⟩ => ?_⟩
    · obtain ⟨m', hm', rfl⟩ := (mem_ofList_sortValues distinct).mp hm
      exact ⟨m', hm', (ih m' hm').mp hfloat⟩
    · exact ⟨_, (mem_ofList_sortValues distinct).mpr ⟨m, hm, rfl⟩, (ih m hm).mpr hfloat⟩

theorem map_eq_map_iff {α β : Type} {f : α → β} {xs ys : List α} :
    xs.map f = ys.map f ↔ xs.length = ys.length ∧ ∀ p ∈ xs.zip ys, f p.1 = f p.2 := by
  rw [← List.forall₂_eq_eq_eq, List.forall₂_map_left_iff, List.forall₂_map_right_iff, List.forall₂_iff_zip, Prod.forall]

/-- Sorting changes nothing but the order of members. -/
theorem Within.same_sortKeys (h : Within depth v) : Same v v.sortKeys := by
  induction h with
  | null | bool | integer | float | string => exact .refl _
  | array h ih =>
    rw [Json.sortKeys, sortItems_eq_map]
    refine .items (List.length_map _).symm fun p hp => ?_
    rw [← List.map_prod_left_eq_zip] at hp
    obtain ⟨v, hv, rfl⟩ := List.mem_map.mp hp
    exact ih v hv
  | object distinct h ih =>
    have hnd := map_fst_sortValues _ ▸ distinct
    refine .trans (.values (map_fst_sortValues _).symm fun p hp => ?_)
      (.reordered hnd (Entries.ofList_perm hnd).symm)
    rw [sortValues_eq_map, ← List.map_prod_left_eq_zip] at hp
    obtain ⟨m, hm, rfl⟩ := List.mem_map.mp hp
    exact ih m hm

theorem Same.sortKeys_eq (h : Same v w) : v.sortKeys = w.sortKeys := by
  induction h with
  | refl => rfl
  | symm _ ih => exact ih.symm
  | trans _ _ ih ih' => exact ih.trans ih'
  | items length _ ih =>
    rw [Json.sortKeys, Json.sortKeys, sortItems_eq_map, sortItems_eq_map, map_eq_map_iff.mpr ⟨length, ih⟩]
  | @values members members' keys _ ih =>
    obtain ⟨length, hkeys⟩ := map_eq_map_iff.mp keys
    have hvalues := map_eq_map_iff (f := fun m => (m.1, m.2.sortKeys)).mpr
      ⟨length, fun p hp => Prod.ext (hkeys p hp) (ih p hp)⟩
    rw [Json.sortKeys, Json.sortKeys, sortValues_eq_map, sortValues_eq_map, hvalues]
  | reordered distinct h =>
    have hnd := map_fst_sortValues _ ▸ distinct
    rw [Json.sortKeys, Json.sortKeys, Entries.ofList_eq_of_perm hnd]
    rw [sortValues_eq_map, sortValues_eq_map]
    exact h.map _

/-- Two values differ in nothing but the order of members if they are alike once sorted. -/
theorem same_iff {depth' : Nat} (hv : Within depth v) (hw : Within depth' w) : Same v w ↔ v.sortKeys = w.sortKeys :=
  ⟨Same.sortKeys_eq, fun h => hv.same_sortKeys.trans (h ▸ hw.same_sortKeys.symm)⟩

end SortKeys

section FirstFloat

variable {depth : Nat} {v : Json} {x : Float}

theorem firstFloatOfItems?_eq_findSome? (items : List Json) :
    firstFloatOfItems? items = items.findSome? firstFloat? := by
  induction items with
  | nil => rfl
  | cons v items ih => rw [firstFloatOfItems?, ih, List.findSome?_cons]; cases firstFloat? v <;> rfl

theorem firstFloatOfMembers?_eq_findSome? (members : List (String × Json)) :
    firstFloatOfMembers? members = members.findSome? fun m => firstFloat? m.2 := by
  induction members with
  | nil => rfl
  | cons m members ih => rw [firstFloatOfMembers?, ih, List.findSome?_cons]; cases firstFloat? m.2 <;> rfl

theorem firstFloat?_eq_none_iff : firstFloat? v = none ↔ ¬ HasFloat v := by
  induction v with
  | null | bool | integer | string => exact iff_of_true rfl nofun
  | float x => exact iff_of_false nofun fun h => h (.float x)
  | array items ih =>
    rw [firstFloat?, firstFloatOfItems?_eq_findSome?, List.findSome?_eq_none_iff, hasFloat_array]
    simp only [not_exists, not_and]
    exact forall₂_congr ih
  | object members ih =>
    rw [firstFloat?, firstFloatOfMembers?_eq_findSome?, List.findSome?_eq_none_iff, hasFloat_object]
    simp only [not_exists, not_and]
    exact forall₂_congr ih

theorem Within.firstFloat?_sortKeys_eq_none_iff (h : Within depth v) :
    v.sortKeys.firstFloat? = none ↔ ¬ HasFloat v :=
  firstFloat?_eq_none_iff.trans (not_congr h.hasFloat_sortKeys)

/-- In ascending order the members of smaller keys come first. -/
theorem mem_before_iff {members before after : List (String × Json)} {m : String × Json}
    (h : members.Pairwise fun v w => v.1 < w.1) (hsplit : members = before ++ m :: after) {w : String × Json} :
    w ∈ before ↔ w ∈ members ∧ w.1 < m.1 := by
  subst hsplit
  obtain ⟨-, hcons, hbefore⟩ := List.pairwise_append.mp h
  refine ⟨fun hw => ⟨List.mem_append_left _ hw, hbefore w hw m List.mem_cons_self⟩, fun ⟨hw, hlt⟩ => ?_⟩
  rcases List.mem_append.mp hw with hw | hw
  · exact hw
  rcases List.mem_cons.mp hw with rfl | hw
  · exact absurd hlt (String.lt_irrefl _)
  · exact absurd hlt (String.lt_asymm ((List.pairwise_cons.mp hcons).1 w hw))

/-- The number found in the sorted value is the first in the order of the bytes of keys. -/
theorem Within.firstFloat?_sortKeys_eq_some_iff (h : Within depth v) :
    v.sortKeys.firstFloat? = some x ↔ FirstFloat v x := by
  induction h with
  | null | bool | integer | string => exact iff_of_false nofun nofun
  | float y => exact ⟨fun h => by cases h; exact .float x, fun h => by cases h; rfl⟩
  | @array depth items h ih =>
    rw [Json.sortKeys, sortItems_eq_map, firstFloat?, firstFloatOfItems?_eq_findSome?, List.findSome?_map,
      List.findSome?_eq_some_iff]
    constructor
    · rintro ⟨before, v, after, rfl, hv, hbefore⟩
      exact .item ((ih v (by simp)).mp hv) fun w hw =>
        (h w (by simp [hw])).firstFloat?_sortKeys_eq_none_iff.mp (hbefore w hw)
    · rintro (_ | @⟨v, _, before, after, hv, hbefore⟩)
      exact ⟨before, v, after, rfl, (ih v (by simp)).mpr hv, fun w hw =>
        (h w (by simp [hw])).firstFloat?_sortKeys_eq_none_iff.mpr (hbefore w hw)⟩
  | @object depth members distinct h ih =>
    -- In the sorted object the members before one are those whose keys have smaller bytes.
    have hsorted := Entries.ofList_pairwise (map_fst_sortValues members ▸ distinct)
    rw [Json.sortKeys, firstFloat?, firstFloatOfMembers?_eq_findSome?, List.findSome?_eq_some_iff]
    constructor
    · rintro ⟨before, m, after, hsplit, hm, hbefore⟩
      obtain ⟨m', hm', rfl⟩ := (mem_ofList_sortValues distinct).mp (hsplit ▸ List.mem_append_right _ List.mem_cons_self)
      refine .member hm' ((ih m' hm').mp hm) fun w hw hlt => ?_
      refine (h w hw).firstFloat?_sortKeys_eq_none_iff.mp (hbefore (w.1, w.2.sortKeys) ?_)
      exact (mem_before_iff hsorted hsplit).mpr
        ⟨(mem_ofList_sortValues distinct).mpr ⟨w, hw, rfl⟩, Utf8.encode_lt_iff.mp hlt⟩
    · rintro (_ | _ | @⟨m, _, _, hm, hfirst, hbefore⟩)
      obtain ⟨before, after, hsplit⟩ := List.append_of_mem ((mem_ofList_sortValues distinct).mpr ⟨m, hm, rfl⟩)
      refine ⟨before, _, after, hsplit, (ih m hm).mpr hfirst, fun w hw => ?_⟩
      obtain ⟨hmem, hlt⟩ := (mem_before_iff hsorted hsplit).mp hw
      obtain ⟨w', hw', rfl⟩ := (mem_ofList_sortValues distinct).mp hmem
      exact (h w' hw').firstFloat?_sortKeys_eq_none_iff.mpr (hbefore w' hw' (Utf8.encode_lt_iff.mpr hlt))

end FirstFloat

section RoundTrip

variable {depth : Nat} {v : Json}

/-- What is read back one by one is read back as a list. -/
theorem mapM_map_eq_some {α β γ : Type} {xs : List α} {f : α → β} {read? : β → Option γ} {k : α → γ}
    (h : ∀ a ∈ xs, read? (f a) = some (k a)) : (xs.map f).mapM read? = some (xs.map k) := by
  induction xs with
  | nil => rfl
  | cons a xs ih =>
    rw [List.forall_mem_cons] at h
    rw [List.map_cons, List.mapM_cons, h.1, ih h.2]
    rfl

/-- The tree of the printed text stands for the value. -/
theorem Within.json?_written (h : Within depth v) (hfloat : ¬ HasFloat v) :
    Written.json? depth (written v) = some v.sortKeys := by
  induction h with
  | null | bool => simp [written, Written.json?, Json.sortKeys]
  | integer low high => simp [written, Written.json?, Numeral.integer?_ofInt low high, Json.sortKeys]
  | float x => exact absurd (.float x) hfloat
  | string s => simp [written, Written.json?, Piece.text?_map_ofChar, Json.sortKeys]
  | array h ih =>
    have hitems := mapM_map_eq_some fun v hv => ih v hv fun hf => hfloat (.item hv hf)
    rw [written, Written.json?, writtenItems_eq_map, hitems, Json.sortKeys, sortItems_eq_map]
    rfl
  | object distinct h ih =>
    rw [written, Written.json?, writtenMembers_eq_map, Json.sortKeys, sortValues_eq_map]
    rw [mapM_map_eq_some fun m hm => ?_]
    · rfl
    · simp [Piece.text?_map_ofChar, ih m hm fun hf => hfloat (.member hm hf)]

/-- A text is read from its bytes as from its characters. -/
theorem Written.ofBytes?_encode (s : String) : ofBytes? (Utf8.encode s) = parse? s := by
  simp only [ofBytes?, leadingBytes?, Utf8.text?_encode]
  rfl

/-- Printed text spells the tree of its value. -/
theorem parse?_text (h : ¬ HasFloat v) : Written.parse? v.text = some (written v) := by
  rw [Written.parse?_eq_some_iff, text, String.toList_ofList]
  exact spells_written (valueText_written h)

theorem Within.json?_canonical (h : Within depth v) (hfloat : ¬ HasFloat v) :
    (Written.parse? v.sortKeys.text).bind (Written.json? depth) = some v.sortKeys := by
  have hsorted : ¬ HasFloat v.sortKeys := fun hf => hfloat (h.hasFloat_sortKeys.mp hf)
  rw [parse?_text hsorted, Option.bind_some, h.sortKeys.json?_written hsorted, h.sortKeys_sortKeys]

theorem Within.canonical?_eq_ok_iff (h : Within depth v) {s : String} :
    v.canonical? = .ok s ↔ ¬ HasFloat v ∧ s = v.sortKeys.text := by
  rw [← h.firstFloat?_sortKeys_eq_none_iff, canonical?]
  cases v.sortKeys.firstFloat? with
  | none => simp [eq_comm]
  | some x => simp

theorem Within.canonical?_eq_error_iff (h : Within depth v) {e : NonInteger} :
    v.canonical? = .error e ↔ FirstFloat v e.number := by
  rw [← h.firstFloat?_sortKeys_eq_some_iff, canonical?]
  cases v.sortKeys.firstFloat? with
  | none => simp
  | some x => cases e; simp

/-- Values with one canonical text are alike once sorted. -/
theorem Within.sortKeys_eq_of_text_eq {w : Json} (hv : Within depth v) (hw : Within depth w) (hfloat : ¬ HasFloat v)
    (hfloat' : ¬ HasFloat w) (h : v.sortKeys.text = w.sortKeys.text) : v.sortKeys = w.sortKeys := by
  have hread := hv.json?_canonical hfloat
  rw [h, hw.json?_canonical hfloat'] at hread
  exact (Option.some.inj hread).symm

end RoundTrip

theorem Within.mono {depth depth' : Nat} {v : Json} (h : Within depth v) (hle : depth ≤ depth') : Within depth' v := by
  induction h generalizing depth' with
  | null => exact .null
  | bool b => exact .bool b
  | integer low high => exact .integer low high
  | float x => exact .float x
  | string s => exact .string s
  | array h ih =>
    cases depth' with
    | zero => cases hle
    | succ depth' => exact .array fun v hv => ih v hv (Nat.le_of_succ_le_succ hle)
  | object distinct h ih =>
    cases depth' with
    | zero => cases hle
    | succ depth' => exact .object distinct fun m hm => ih m hm (Nat.le_of_succ_le_succ hle)

/-- Equal canonical bytes belong to values that are equal but for the order of members. -/
theorem encode_canonical?_eq_iff {depth depth' : Nat} {v w : Json} {s t : String} (hv : v.Within depth)
    (hw : w.Within depth') (hs : v.canonical? = .ok s) (ht : w.canonical? = .ok t) :
    Utf8.encode s = Utf8.encode t ↔ Same v w := by
  obtain ⟨hfloat, rfl⟩ := hv.canonical?_eq_ok_iff.mp hs
  obtain ⟨hfloat', rfl⟩ := hw.canonical?_eq_ok_iff.mp ht
  rw [same_iff hv hw]
  refine ⟨fun h => ?_, fun h => by rw [h]⟩
  exact (hv.mono (Nat.le_max_left depth depth')).sortKeys_eq_of_text_eq (hw.mono (Nat.le_max_right depth depth'))
    hfloat hfloat' (Utf8.encode_injective h)

/-- Canonical text is refused by the first floating-point number, if there is one, and otherwise read back as the value.
Equal canonical bytes belong to values that are equal but for the order of members, and what is hashed for a digest
determines the domain and the value. -/
theorem canonical?_faithful {v : Json} (hv : v.Within depthLimit) :
    ((∃ e, v.canonical? = .error e) ↔ HasFloat v) ∧
    (∀ e, v.canonical? = .error e ↔ FirstFloat v e.number) ∧
    ∀ s, v.canonical? = .ok s →
      (Written.ofBytes? (Utf8.encode s)).bind (Written.json? depthLimit) = some v.sortKeys ∧ Same v v.sortKeys ∧
      (∀ d, ContentHash.ofText d s =
        ⟨"sha256", ContentHash.hex (Sha256.hash (ContentHash.preimage d (Utf8.encode s)))⟩) ∧
      ∀ (depth : Nat) (w : Json) (t : String), w.Within depth → w.canonical? = .ok t →
        (Utf8.encode s = Utf8.encode t ↔ Same v w) ∧
        ∀ d d' : Domain, ContentHash.preimage d (Utf8.encode s) = ContentHash.preimage d' (Utf8.encode t) →
          d = d' ∧ Same v w := by
  refine ⟨?_, fun e => hv.canonical?_eq_error_iff, fun s hs => ?_⟩
  · have hnone := hv.firstFloat?_sortKeys_eq_none_iff
    cases hfirst : v.sortKeys.firstFloat? with
    | none => simp [canonical?, hfirst, hnone.mp hfirst]
    | some x =>
      have hfloat : HasFloat v := Classical.not_not.mp fun hno => by simp [hnone.mpr hno] at hfirst
      simp [canonical?, hfirst, hfloat]
  · obtain ⟨hfloat, rfl⟩ := hv.canonical?_eq_ok_iff.mp hs
    refine ⟨?_, hv.same_sortKeys, fun d => rfl, fun depth w t hw ht => ⟨encode_canonical?_eq_iff hv hw hs ht, ?_⟩⟩
    · rw [Written.ofBytes?_encode]
      exact hv.json?_canonical hfloat
    · intro d d' h
      obtain ⟨hd, hbytes⟩ := ContentHash.preimage_inj h
      exact ⟨hd, (encode_canonical?_eq_iff hv hw hs ht).mp hbytes⟩

/-- A value with control characters, quotes, backslashes and integers at both limits. -/
def mixture : Json :=
  .object [("z\n\"\\", .array [.integer int64Min, .integer nat64Max, .null]),
    ("a\x00é", .object [("y", .string "\x1f\u2028😀"), ("x", .bool true)])]

/-- Its canonical text. -/
def mixtureText : String :=
  "\x7b\"a\\u0000é\":\x7b\"x\":true,\"y\":\"\\u001f\u2028😀\"\x7d," ++
    "\"z\\n\\\"\\\\\":[-9223372036854775808,18446744073709551615,null]\x7d"

theorem mixture_within : mixture.Within depthLimit := by
  have hnumbers : Within (depthLimit - 1) (.array [.integer int64Min, .integer nat64Max, .null]) := .array (by
    simp only [List.forall_mem_cons]
    exact ⟨.integer (by decide) (by decide), .integer (by decide) (by decide), .null, nofun⟩)
  have hnested : Within (depthLimit - 1) (.object [("y", .string "\x1f\u2028😀"), ("x", .bool true)]) :=
    .object (by decide +kernel) (by
      simp only [List.forall_mem_cons]
      exact ⟨.string _, .bool _, nofun⟩)
  refine .object (by decide +kernel) ?_
  simp only [List.forall_mem_cons]
  exact ⟨hnumbers, hnested, nofun⟩

theorem canonical?_faithful_mixture : mixture.Within depthLimit ∧ mixture.canonical? = .ok mixtureText ∧
    (Written.ofBytes? (Utf8.encode mixtureText)).bind (Written.json? depthLimit) = some mixture.sortKeys := by
  have hcanonical : mixture.canonical? = .ok mixtureText := by
    rw [mixture_within.canonical?_eq_ok_iff]
    exact ⟨firstFloat?_eq_none_iff.mp rfl, by decide +kernel⟩
  exact ⟨mixture_within, hcanonical, ((canonical?_faithful mixture_within).2.2 _ hcanonical).1⟩

end RankedPlans.Json
