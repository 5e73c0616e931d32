import RankedPlans.Proofs.Json.Record
import RankedPlans.Task.Record

/-! Task records. The canonical text of a task is read back as the task, and two texts that differ in nothing but white
space, the order of members, members that are no fields and the order of facts hold the same task. -/

namespace RankedPlans

open Json.Written

section Fits

/-- A fact of two numbers of 32 bits. -/
structure Fact.Fits (f : Fact) : Prop where
  var : f.var ≤ nat32Max
  value : f.value ≤ nat32Max

/-- An operator whose cost is a signed number of 64 bits. -/
structure Operator.Fits (o : Operator) : Prop where
  low : int64Min ≤ o.cost
  high : o.cost ≤ int64Max
  preconditions : ∀ f ∈ o.preconditions, f.Fits
  effects : ∀ f ∈ o.effects, f.Fits

/-- A draft whose numbers are of the size that records hold. -/
structure Draft.Fits (d : Draft) : Prop where
  operators : ∀ o ∈ d.operators.toList, o.Fits
  initial : ∀ n ∈ d.initial.toList, n ≤ nat32Max
  goal : ∀ f ∈ d.goal, f.Fits

instance Fact.decidableFits (f : Fact) : Decidable f.Fits :=
  decidable_of_iff (f.var ≤ nat32Max ∧ f.value ≤ nat32Max) ⟨fun ⟨hvar, hvalue⟩ => ⟨hvar, hvalue⟩,
    fun ⟨hvar, hvalue⟩ => ⟨hvar, hvalue⟩⟩

instance Operator.decidableFits (o : Operator) : Decidable o.Fits :=
  decidable_of_iff (int64Min ≤ o.cost ∧ o.cost ≤ int64Max ∧ (∀ f ∈ o.preconditions, f.Fits) ∧ ∀ f ∈ o.effects, f.Fits)
    ⟨fun ⟨hlow, hhigh, hpre, heff⟩ => ⟨hlow, hhigh, hpre, heff⟩,
      fun ⟨hlow, hhigh, hpre, heff⟩ => ⟨hlow, hhigh, hpre, heff⟩⟩

instance Draft.decidableFits (d : Draft) : Decidable d.Fits :=
  decidable_of_iff ((∀ o ∈ d.operators.toList, o.Fits) ∧ (∀ n ∈ d.initial.toList, n ≤ nat32Max) ∧ ∀ f ∈ d.goal, f.Fits)
    ⟨fun ⟨hops, hinit, hgoal⟩ => ⟨hops, hinit, hgoal⟩, fun ⟨hops, hinit, hgoal⟩ => ⟨hops, hinit, hgoal⟩⟩

end Fits

section Printed

/-- A printed fact is read back. -/
theorem Fact.read?_written {f : Fact} (h : f.Fits) : read? f.toJson.sortKeys.written = some f := by
  rw [read?, toJson, fields?_written_sortKeys rfl (by simp)]
  simp [Json.required?, nat32?_written h.var, nat32?_written h.value]

theorem Fact.list?_written {facts : List Fact} (h : ∀ f ∈ facts, f.Fits) :
    list? read? (Json.array (facts.map toJson)).sortKeys.written = some facts :=
  Json.Written.list?_written fun f hf => read?_written (h f hf)

theorem Variable.read?_written (v : Variable) : read? v.toJson.sortKeys.written = some v := by
  rw [read?, toJson, fields?_written_sortKeys rfl (by simp)]
  simp [Json.required?, string?_written, list?_written fun s _ => string?_written s]

theorem Operator.read?_written {o : Operator} (h : o.Fits) : read? o.toJson.sortKeys.written = some o := by
  rw [read?, toJson, fields?_written_sortKeys rfl (by simp)]
  simp [Json.required?, string?_written, int64?_written h.low h.high, Fact.list?_written h.preconditions,
    Fact.list?_written h.effects]

theorem Draft.read?_written {d : Draft} (h : d.Fits) : read? d.toJson.sortKeys.written = some d := by
  rw [read?, toJson, fields?_written_sortKeys rfl (by simp)]
  have hvars := list?_written fun v (_ : v ∈ d.vars.toList) => Variable.read?_written v
  have hoperators := list?_written fun o ho => Operator.read?_written (h.operators o ho)
  have hinitial := list?_written fun n hn => nat32?_written (h.initial n hn)
  simp [Json.required?, hvars, hoperators, hinitial, Fact.list?_written h.goal]

theorem Fact.not_hasFloat_toJson (f : Fact) : ¬ f.toJson.HasFloat := by
  simp [toJson, Json.hasFloat_object, Json.not_hasFloat_integer]

theorem Variable.not_hasFloat_toJson (v : Variable) : ¬ v.toJson.HasFloat := by
  simp [toJson, Json.hasFloat_object, Json.hasFloat_array, Json.not_hasFloat_string]

theorem Operator.not_hasFloat_toJson (o : Operator) : ¬ o.toJson.HasFloat := by
  simp [toJson, Json.hasFloat_object, Json.hasFloat_array, Json.not_hasFloat_string, Json.not_hasFloat_integer,
    Fact.not_hasFloat_toJson]

theorem Draft.not_hasFloat_toJson (d : Draft) : ¬ d.toJson.HasFloat := by
  simp [toJson, Json.hasFloat_object, Json.hasFloat_array, Json.not_hasFloat_integer, Variable.not_hasFloat_toJson,
    Operator.not_hasFloat_toJson, Fact.not_hasFloat_toJson]

theorem Fact.toJson_within {depth : Nat} {f : Fact} (h : f.Fits) : f.toJson.Within (depth + 1) := by
  refine .object (by simp) ?_
  simp only [List.forall_mem_cons]
  exact ⟨Json.within_nat32 h.var, Json.within_nat32 h.value, List.forall_mem_nil _⟩

theorem Variable.toJson_within {depth : Nat} (v : Variable) : v.toJson.Within (depth + 2) := by
  refine .object (by simp) ?_
  simp only [List.forall_mem_cons]
  exact ⟨.string _, .array_map fun s _ => .string s, List.forall_mem_nil _⟩

theorem Operator.toJson_within {depth : Nat} {o : Operator} (h : o.Fits) : o.toJson.Within (depth + 3) := by
  refine .object (by simp) ?_
  simp only [List.forall_mem_cons]
  exact ⟨.string _, Json.within_int64 h.low h.high, .array_map fun f hf => Fact.toJson_within (h.preconditions f hf),
    .array_map fun f hf => Fact.toJson_within (h.effects f hf), List.forall_mem_nil _⟩

/-- A printed draft nests five arrays and objects at most. -/
theorem Draft.toJson_within {depth : Nat} {d : Draft} (h : d.Fits) : d.toJson.Within (depth + 5) := by
  refine .object (by simp) ?_
  simp only [List.forall_mem_cons]
  exact ⟨.array_map fun v _ => Variable.toJson_within v,
    .array_map fun o ho => Operator.toJson_within (h.operators o ho),
    .array_map fun n hn => Json.within_nat32 (h.initial n hn),
    .array_map fun f hf => Fact.toJson_within (h.goal f hf), List.forall_mem_nil _⟩

end Printed

section Read

theorem Fact.read?_fits {w : Json.Written} {f : Fact} (h : read? w = some f) : f.Fits := by
  obtain ⟨xs, -, hxs⟩ := Option.bind_eq_some_iff.mp h
  split at hxs
  · obtain ⟨var, hvar, hxs⟩ := Option.bind_eq_some_iff.mp hxs
    obtain ⟨value, hvalue, hxs⟩ := Option.bind_eq_some_iff.mp hxs
    cases hxs
    exact ⟨required?_forall (P := (· ≤ nat32Max)) (fun _ _ => nat32?_le) hvar,
      required?_forall (P := (· ≤ nat32Max)) (fun _ _ => nat32?_le) hvalue⟩
  · cases hxs

theorem Operator.read?_fits {w : Json.Written} {o : Operator} (h : read? w = some o) : o.Fits := by
  obtain ⟨xs, -, hxs⟩ := Option.bind_eq_some_iff.mp h
  split at hxs
  · obtain ⟨name, -, hxs⟩ := Option.bind_eq_some_iff.mp hxs
    obtain ⟨cost, hcost, hxs⟩ := Option.bind_eq_some_iff.mp hxs
    obtain ⟨preconditions, hpreconditions, hxs⟩ := Option.bind_eq_some_iff.mp hxs
    obtain ⟨effects, heffects, hxs⟩ := Option.bind_eq_some_iff.mp hxs
    cases hxs
    have hbounds := required?_forall (fun _ _ => intWithin?_eq_some) hcost
    exact ⟨hbounds.1, hbounds.2,
      required?_forall (fun _ _ => list?_forall fun _ _ => Fact.read?_fits) hpreconditions,
      required?_forall (fun _ _ => list?_forall fun _ _ => Fact.read?_fits) heffects⟩
  · cases hxs

/-- Whatever is read fits. -/
theorem Draft.read?_fits {w : Json.Written} {d : Draft} (h : read? w = some d) : d.Fits := by
  obtain ⟨xs, -, hxs⟩ := Option.bind_eq_some_iff.mp h
  split at hxs
  · obtain ⟨vars, -, hxs⟩ := Option.bind_eq_some_iff.mp hxs
    obtain ⟨operators, hoperators, hxs⟩ := Option.bind_eq_some_iff.mp hxs
    obtain ⟨initial, hinitial, hxs⟩ := Option.bind_eq_some_iff.mp hxs
    obtain ⟨goal, hgoal, hxs⟩ := Option.bind_eq_some_iff.mp hxs
    cases hxs
    exact ⟨required?_forall (fun _ _ => list?_forall fun _ _ => Operator.read?_fits) hoperators,
      required?_forall (fun _ _ => list?_forall fun _ _ => nat32?_le) hinitial,
      required?_forall (fun _ _ => list?_forall fun _ _ => Fact.read?_fits) hgoal⟩
  · cases hxs

theorem Fact.fits_sort {facts : List Fact} (h : ∀ f ∈ facts, f.Fits) : ∀ f ∈ sort facts, f.Fits :=
  fun f hf => h f ((sortBy_perm le facts).mem_iff.mp hf)

theorem Operator.Fits.normalize {o : Operator} (h : o.Fits) : o.normalize.Fits :=
  ⟨h.low, h.high, Fact.fits_sort h.preconditions, Fact.fits_sort h.effects⟩

theorem Draft.Fits.normalize {d : Draft} (h : d.Fits) : d.normalize.Fits := by
  refine ⟨fun o ho => ?_, h.initial, Fact.fits_sort h.goal⟩
  obtain ⟨o', ho', rfl⟩ : ∃ o' ∈ d.operators, o'.normalize = o := by simpa [Draft.normalize] using ho
  exact (h.operators o' (by simpa using ho')).normalize

end Read

end RankedPlans
