import RankedPlans.Enumeration.Result
import RankedPlans.Proofs.Cost
import RankedPlans.Proofs.Json.Record

/-! Result records. The canonical text of a result is read back as the result, and whatever is read fits the numbers
that records hold. -/

namespace RankedPlans

open Json.Written

section Fits

/-- Counters of 64 bits. -/
def Statistics.Fits (s : Statistics) : Prop :=
  ∀ m ∈ s.counters, m.2 ≤ nat64Max

instance Statistics.decidableFits (s : Statistics) : Decidable s.Fits :=
  inferInstanceAs (Decidable (∀ m ∈ s.counters, m.2 ≤ nat64Max))

/-- The costs of a result are in range. -/
structure Result.InRange (r : Result) : Prop where
  plans : ∀ p ∈ r.plans, Cost.InRange p.cost
  optimalCost : ∀ cost ∈ r.optimalCost, Cost.InRange cost

/-- A result whose numbers are of the size that records hold. -/
structure Result.Fits (r : Result) : Prop extends r.InRange where
  statistics : r.statistics.Fits

end Fits

section Printed

theorem PlanRecord.read?_written {p : PlanRecord} (h : Cost.InRange p.cost) :
    read? p.toJson.sortKeys.written = some p := by
  rw [read?, toJson, fields?_written_sortKeys rfl (by simp)]
  simp [Json.required?, int64?_written h.1 h.2, list?_written fun s _ => string?_written s]

theorem Termination.choice?_written (reason : Termination) :
    choice? names (Json.string reason.name).sortKeys.written = some reason := by
  simp only [Json.sortKeys, Json.written, choice?, Json.Piece.text?_map_ofChar]
  cases reason <;> decide

theorem Statistics.nodup_names (s : Statistics) : (s.counters.map Prod.fst).Nodup := by
  simp [counters]

/-- Printed counters are read back, each under its name. -/
theorem Statistics.read?_written {s : Statistics} (h : s.Fits) : read? s.toJson.sortKeys.written = some s := by
  have hnd : ((s.counters.map fun m => (m.1, Json.integer m.2)).map Prod.fst).Nodup := by
    rw [List.map_map]
    exact s.nodup_names
  have hread : ((s.counters.map fun m => (m.1, Json.integer m.2)).map fun m => some m.2.sortKeys.written).mapM
      (Json.required? nat64?) = some (s.counters.map Prod.snd) := by
    rw [List.map_map]
    exact Json.mapM_map_eq_some fun m hm => nat64?_written (h m hm)
  rw [read?, toJson]
  dsimp only
  rw [fields?_written_sortKeys (by simp [counters]) hnd]
  simp only [Option.bind_eq_bind, Option.bind_some, hread]
  rfl

theorem Result.optional?_written {cost : Option Int} (h : ∀ n ∈ cost, Cost.InRange n) :
    Json.optional? int64? (some ((cost.map Json.integer).getD .null).sortKeys.written) = some cost := by
  cases cost with
  | none => rfl
  | some n =>
    obtain ⟨low, high⟩ := h n rfl
    exact orNull?_eq_some (int64?_written low high) (by simp [Json.sortKeys, Json.written])

theorem Result.read?_written {r : Result} (h : r.Fits) : read? r.toJson.sortKeys.written = some r := by
  rw [read?, toJson, fields?_written_sortKeys rfl (by simp)]
  have hplans := list?_written fun p hp => PlanRecord.read?_written (h.plans p hp)
  have hoptimal := optional?_written h.optimalCost
  simp [Json.required?, hplans, hoptimal, bool?_written, Termination.choice?_written,
    Statistics.read?_written h.statistics]

theorem PlanRecord.not_hasFloat_toJson (p : PlanRecord) : ¬ p.toJson.HasFloat := by
  simp [toJson, Json.hasFloat_object, Json.hasFloat_array, Json.not_hasFloat_integer, Json.not_hasFloat_string]

theorem Statistics.not_hasFloat_toJson (s : Statistics) : ¬ s.toJson.HasFloat := by
  simp [toJson, Json.hasFloat_object, Json.not_hasFloat_integer]

theorem Result.not_hasFloat_plansJson (r : Result) : ¬ r.plansJson.HasFloat := by
  simp [plansJson, Json.hasFloat_object, Json.hasFloat_array, PlanRecord.not_hasFloat_toJson]

theorem Result.not_hasFloat_toJson (r : Result) : ¬ r.toJson.HasFloat := by
  have hoptimal : ¬ ((r.optimalCost.map Json.integer).getD .null).HasFloat := by
    cases r.optimalCost with
    | none => exact nofun
    | some n => exact Json.not_hasFloat_integer n
  simp [toJson, Json.hasFloat_object, Json.hasFloat_array, Json.not_hasFloat_bool, Json.not_hasFloat_string,
    PlanRecord.not_hasFloat_toJson, Statistics.not_hasFloat_toJson, hoptimal]

theorem PlanRecord.toJson_within {depth : Nat} {p : PlanRecord} (h : Cost.InRange p.cost) :
    p.toJson.Within (depth + 2) := by
  refine .object (by simp) ?_
  simp only [List.forall_mem_cons]
  exact ⟨Json.within_int64 h.1 h.2, .array_map fun s _ => .string s, List.forall_mem_nil _⟩

theorem Statistics.toJson_within {depth : Nat} {s : Statistics} (h : s.Fits) : s.toJson.Within (depth + 1) := by
  refine .object ?_ (List.forall_mem_map.mpr fun m hm => Json.within_nat64 (h m hm))
  rw [List.map_map]
  exact s.nodup_names

theorem Result.plansJson_within {depth : Nat} {r : Result} (h : r.Fits) : r.plansJson.Within (depth + 4) := by
  refine .object (by simp) ?_
  simp only [List.forall_mem_cons]
  exact ⟨.array_map fun p hp => PlanRecord.toJson_within (h.plans p hp), List.forall_mem_nil _⟩

/-- A printed result nests four arrays and objects at most. -/
theorem Result.toJson_within {depth : Nat} {r : Result} (h : r.Fits) : r.toJson.Within (depth + 4) := by
  have hoptimal : ((r.optimalCost.map Json.integer).getD .null).Within (depth + 3) := by
    cases hcost : r.optimalCost with
    | none => exact .null
    | some n => exact Json.within_int64 (h.optimalCost n hcost).1 (h.optimalCost n hcost).2
  refine .object (by simp) ?_
  simp only [List.forall_mem_cons]
  exact ⟨.array_map fun p hp => PlanRecord.toJson_within (h.plans p hp), hoptimal, .bool _, .bool _, .bool _,
    .string _, Statistics.toJson_within h.statistics, List.forall_mem_nil _⟩

end Printed

section Read

theorem PlanRecord.read?_inRange {w : Json.Written} {p : PlanRecord} (h : read? w = some p) :
    Cost.InRange p.cost := by
  obtain ⟨xs, -, hxs⟩ := Option.bind_eq_some_iff.mp h
  split at hxs
  · obtain ⟨cost, hcost, hxs⟩ := Option.bind_eq_some_iff.mp hxs
    obtain ⟨actions, -, hxs⟩ := Option.bind_eq_some_iff.mp hxs
    cases hxs
    exact required?_forall (P := Cost.InRange) (fun _ _ => intWithin?_eq_some) hcost
  · cases hxs

theorem Statistics.read?_fits {w : Json.Written} {s : Statistics} (h : read? w = some s) : s.Fits := by
  obtain ⟨xs, -, hxs⟩ := Option.bind_eq_some_iff.mp h
  obtain ⟨numbers, hnumbers, hxs⟩ := Option.bind_eq_some_iff.mp hxs
  have hall : ∀ n ∈ numbers, n ≤ nat64Max := by
    intro n hn
    obtain ⟨hlength, hget⟩ := List.forall₂_iff_get.mp (mapM_eq_some_iff.mp hnumbers)
    obtain ⟨i, hi, rfl⟩ := List.getElem_of_mem hn
    exact required?_forall (P := (· ≤ nat64Max)) (fun _ _ => nat64?_le) (hget i (hlength ▸ hi) hi)
  split at hxs
  · cases hxs
    simpa [Fits, counters] using hall
  · cases hxs

theorem Result.optional?_inRange {v : Option Json.Written} {cost : Option Int}
    (h : Json.optional? int64? v = some cost) : ∀ n ∈ cost, Cost.InRange n := by
  rintro n rfl
  cases v with
  | none => cases h
  | some w =>
    simp only [Json.optional?, orNull?] at h
    split at h
    · cases h
    · obtain ⟨m, hm, hn⟩ := Option.map_eq_some_iff.mp h
      exact Option.some.inj hn ▸ intWithin?_eq_some hm

/-- Whatever is read fits. -/
theorem Result.read?_fits {w : Json.Written} {r : Result} (h : read? w = some r) : r.Fits := by
  obtain ⟨xs, -, hxs⟩ := Option.bind_eq_some_iff.mp h
  split at hxs
  · obtain ⟨plans, hplans, hxs⟩ := Option.bind_eq_some_iff.mp hxs
    obtain ⟨optimalCost, hoptimal, hxs⟩ := Option.bind_eq_some_iff.mp hxs
    obtain ⟨unsolvable, -, hxs⟩ := Option.bind_eq_some_iff.mp hxs
    obtain ⟨timedOut, -, hxs⟩ := Option.bind_eq_some_iff.mp hxs
    obtain ⟨outOfStates, -, hxs⟩ := Option.bind_eq_some_iff.mp hxs
    obtain ⟨termination, -, hxs⟩ := Option.bind_eq_some_iff.mp hxs
    obtain ⟨statistics, hstatistics, hxs⟩ := Option.bind_eq_some_iff.mp hxs
    cases hxs
    exact ⟨⟨required?_forall (fun _ _ => list?_forall fun _ _ => PlanRecord.read?_inRange) hplans,
      optional?_inRange hoptimal⟩, required?_forall (fun _ _ => Statistics.read?_fits) hstatistics⟩
  · cases hxs

end Read

namespace Result

variable {r r' : Result}

theorem canonical?_toJson (h : r.Fits) : r.toJson.canonical? = .ok r.canonical := by
  have hwithin : r.toJson.Within 4 := toJson_within h
  exact hwithin.canonical?_eq_ok_iff.mpr ⟨not_hasFloat_toJson r, rfl⟩

theorem canonical?_plansJson (h : r.Fits) : r.plansJson.canonical? = .ok r.canonicalPlans := by
  have hwithin : r.plansJson.Within 4 := plansJson_within h
  exact hwithin.canonical?_eq_ok_iff.mpr ⟨not_hasFloat_plansJson r, rfl⟩

/-- The bytes of the canonical text of a result are read back as the result. -/
theorem ofBytes?_canonical (h : r.Fits) : ofBytes? (Utf8.encode r.canonical) = some r := by
  have hwithin : r.toJson.Within 4 := toJson_within h
  have hfloat : ¬ r.toJson.sortKeys.HasFloat := fun hf => not_hasFloat_toJson r (hwithin.hasFloat_sortKeys.mp hf)
  rw [ofBytes?, Json.Written.ofBytes?_encode, canonical, Json.parse?_text hfloat, Option.bind_some]
  exact read?_written h

theorem ofBytes?_fits {bytes : List UInt8} (h : ofBytes? bytes = some r) : r.Fits := by
  obtain ⟨w, -, hw⟩ := Option.bind_eq_some_iff.mp h
  exact read?_fits hw

/-- The bytes of a canonical text tell the result. -/
theorem eq_of_encode_canonical (h : r.Fits) (h' : r'.Fits)
    (heq : Utf8.encode r.canonical = Utf8.encode r'.canonical) : r = r' := by
  have hread := ofBytes?_canonical h
  rw [heq, ofBytes?_canonical h'] at hread
  exact (Option.some.inj hread).symm

end Result

end RankedPlans
