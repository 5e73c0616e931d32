import RankedPlans.Archive.Writing
import RankedPlans.Proofs.Archive.FileTree

/-! What the writing of an archive has done to a directory after any number of its changes. Each file takes two of them,
and only the second one is seen under a name that is not temporary. -/

namespace RankedPlans.Archive

variable {d d' : Directory} {name : String} {bytes : List UInt8} {ops : List Operation}

/-- The changes that put some files in place, one after the other. -/
def changes (placed : List (String × List UInt8)) : List Operation :=
  placed.flatMap fun (name, bytes) => place name bytes

/-- The files of an archive with what they hold. -/
def contents (t : Task) (r : Result) : List (String × List UInt8) :=
  [(taskFile, Utf8.encode t.canonical), (resultFile, Utf8.encode r.canonical),
    (plansFile, Utf8.encode r.canonicalPlans), (digestFile, Utf8.encode r.digest.text)]

theorem operations_eq (r : Report) : operations r = changes (contents r.task r.result) :=
  rfl

theorem isTemporary_mark (name : String) : isTemporary (temporaryMark ++ name) = true := by
  rw [isTemporary, String.toList_append, List.isPrefixOf_iff_prefix]
  exact List.prefix_append _ _

theorem ne_of_isTemporary {other : String} (h : isTemporary name = false) : name ≠ temporaryMark ++ other := by
  rintro rfl
  rw [isTemporary_mark] at h
  cases h

section Perform

theorem perform_cons_eq_true_iff {op : Operation} :
    perform (op :: ops) d = (d', true) ↔ ∃ mid, op.perform? d = some mid ∧ perform ops mid = (d', true) := by
  rw [perform]
  split
  · rename_i mid hmid
    simp [hmid]
  · rename_i hnone
    simp [hnone]

/-- Changes that cannot all be made stop after some of them. -/
theorem exists_perform_take (ops : List Operation) (d : Directory) :
    ∃ n ≤ ops.length, perform (ops.take n) d = ((perform ops d).1, true) := by
  induction ops generalizing d with
  | nil => exact ⟨0, Nat.le_refl 0, rfl⟩
  | cons op ops ih =>
    rw [perform]
    split
    · rename_i mid hmid
      obtain ⟨n, hn, hrun⟩ := ih mid
      exact ⟨n + 1, Nat.succ_le_succ hn, perform_cons_eq_true_iff.mpr ⟨mid, hmid, hrun⟩⟩
    · exact ⟨0, Nat.zero_le _, rfl⟩

end Perform

section Place

variable {file : String}

/-- Putting a file in place changes that file alone, apart from temporary ones. -/
theorem place_spec {rest : List Operation} (h : perform (place file bytes ++ rest) d = (d', true)) :
    ∃ mid, perform rest mid = (d', true) ∧ ∀ name, isTemporary name = false →
        mid.file? name = (if name = file then some bytes else d.file? name) ∧
        (name ∈ mid.fileNames ↔ name = file ∨ name ∈ d.fileNames) := by
  obtain ⟨written, hwrite, h⟩ := perform_cons_eq_true_iff.mp h
  obtain ⟨mid, hrename, hrest⟩ := perform_cons_eq_true_iff.mp h
  obtain rfl := Directory.write?_eq_some hwrite
  obtain ⟨held, hheld, rfl⟩ := Directory.rename?_eq_some hrename
  rw [Directory.file?_put, if_pos rfl] at hheld
  obtain rfl := Option.some.inj hheld
  refine ⟨_, hrest, fun name hname => ⟨?_, ?_⟩⟩
  · rw [Directory.file?_put, Directory.file?_erase, Directory.file?_put, if_neg (ne_of_isTemporary hname),
      if_neg (ne_of_isTemporary hname)]
  · simp only [Directory.mem_fileNames_put, Directory.mem_fileNames_erase, ne_of_isTemporary hname, ne_eq,
      not_false_eq_true, true_and, false_or]

/-- A temporary file is seen under no other name. -/
theorem write_temporary_spec (h : perform [.write (temporaryMark ++ file) bytes] d = (d', true))
    (hname : isTemporary name = false) :
    d'.file? name = d.file? name ∧ (name ∈ d'.fileNames ↔ name ∈ d.fileNames) := by
  obtain ⟨mid, hwrite, hrest⟩ := perform_cons_eq_true_iff.mp h
  obtain rfl := Directory.write?_eq_some hwrite
  cases hrest
  rw [Directory.file?_put, if_neg (ne_of_isTemporary hname), Directory.mem_fileNames_put]
  exact ⟨rfl, or_iff_right (ne_of_isTemporary hname)⟩

/-- In a directory without further directories a file can be put in place. -/
theorem exists_place (h : d.Flat) (file : String) (bytes : List UInt8) (rest : List Operation) :
    ∃ mid : Directory, mid.Flat ∧ perform (place file bytes ++ rest) d = perform rest mid := by
  have hwritten := h.put (temporaryMark ++ file) bytes
  have hheld : Directory.file? (d.put (temporaryMark ++ file) (.file bytes)) (temporaryMark ++ file) =
      some bytes := by
    rw [Directory.file?_put, if_pos rfl]
  refine ⟨_, (hwritten.erase (temporaryMark ++ file)).put file bytes, ?_⟩
  simp only [place, List.cons_append, List.nil_append, perform, Operation.perform?, h.write?_eq,
    hwritten.rename?_eq hheld]

end Place

section Changes

variable {placed : List (String × List UInt8)} {n : Nat}

theorem changes_cons (name : String) (bytes : List UInt8) (placed : List (String × List UInt8)) :
    changes ((name, bytes) :: placed) = place name bytes ++ changes placed :=
  rfl

theorem take_changes (placed : List (String × List UInt8)) (k : Nat) :
    (changes placed).take (2 * k) = changes (placed.take k) := by
  induction placed generalizing k with
  | nil => rw [List.take_nil, changes, List.flatMap_nil, List.take_nil]
  | cons p placed ih =>
    cases k with
    | zero => rfl
    | succ k =>
      rw [List.take_succ_cons, changes_cons p.1 p.2, changes_cons p.1 p.2, ← ih]
      rfl

/-- After any number of changes the first files, one for two changes, hold what is put in place, and all other files
that are not temporary are as they were. -/
theorem perform_take_changes (hnd : (placed.map Prod.fst).Nodup)
    (h : perform ((changes placed).take n) d = (d', true)) (hname : isTemporary name = false) :
    d'.file? name = (Entries.get? (placed.take (n / 2)) name).or (d.file? name) ∧
    (name ∈ d'.fileNames ↔ name ∈ (placed.take (n / 2)).map Prod.fst ∨ name ∈ d.fileNames) := by
  induction placed generalizing d n with
  | nil =>
    simp only [changes, List.flatMap_nil, List.take_nil] at h
    cases h
    simp [Entries.get?]
  | cons p placed ih =>
    obtain ⟨file, bytes⟩ := p
    obtain ⟨hnew, hnd⟩ := List.nodup_cons.mp hnd
    rw [changes_cons] at h
    rcases n with _ | _ | n
    · cases h
      simp [Entries.get?]
    · obtain ⟨hheld, hnames⟩ := write_temporary_spec h hname
      rw [hheld, hnames]
      simp [Entries.get?]
    · have htake : (place file bytes ++ changes placed).take (n + 2) =
          place file bytes ++ (changes placed).take n := rfl
      rw [htake] at h
      obtain ⟨mid, hrest, hmid⟩ := place_spec h
      obtain ⟨hheld, hnames⟩ := ih hnd hrest
      obtain ⟨hmidHeld, hmidNames⟩ := hmid name hname
      have hhalf : (n + 2) / 2 = n / 2 + 1 := by omega
      rw [hhalf, List.take_succ_cons, Entries.get?_cons, hheld, hnames, hmidHeld, hmidNames]
      constructor
      · split
        · rename_i heq
          -- the file is put in place once, so no later change touches it
          have hnone : Entries.get? (placed.take (n / 2)) name = none := by
            refine Option.eq_none_iff_forall_ne_some.mpr fun value hvalue => hnew ?_
            rw [← heq]
            exact List.mem_map.mpr ⟨_, List.mem_of_mem_take (Entries.mem_of_get? hvalue), rfl⟩
          rw [hnone]
          rfl
        · rfl
      · rw [List.map_cons, List.mem_cons]
        exact or_left_comm.trans or_assoc.symm

theorem length_changes (placed : List (String × List UInt8)) : (changes placed).length = 2 * placed.length := by
  induction placed with
  | nil => rfl
  | cons p placed ih =>
    rw [changes_cons p.1 p.2, List.length_append, ih, List.length_cons, place, List.length_cons, List.length_cons,
      List.length_nil]
    omega

/-- After all changes every file holds what is put in place. -/
theorem perform_changes (hnd : (placed.map Prod.fst).Nodup) (h : perform (changes placed) d = (d', true))
    (hname : isTemporary name = false) : d'.file? name = (Entries.get? placed name).or (d.file? name) ∧
      (name ∈ d'.fileNames ↔ name ∈ placed.map Prod.fst ∨ name ∈ d.fileNames) := by
  rw [← List.take_of_length_le (Nat.le_of_eq (length_changes placed))] at h
  have hspec := perform_take_changes hnd h hname
  rwa [Nat.mul_div_cancel_left _ Nat.zero_lt_two, List.take_length] at hspec

/-- A file is exchanged by the second of its own two changes. -/
theorem perform_take_file? (hnd : (placed.map Prod.fst).Nodup) (h : perform ((changes placed).take n) d = (d', true))
    (hname : isTemporary name = false) {i : Nat} (hi : placed[i]? = some (name, bytes)) :
    d'.file? name = if 2 * (i + 1) ≤ n then some bytes else d.file? name := by
  rw [(perform_take_changes hnd h hname).1, Entries.get?_take hnd hi]
  have hhalf : i < n / 2 ↔ 2 * (i + 1) ≤ n := by omega
  simp only [hhalf]
  split <;> rfl

/-- In a directory without further directories all changes can be made. -/
theorem perform_changes_of_flat (h : d.Flat) (placed : List (String × List UInt8)) :
    ∃ d' : Directory, d'.Flat ∧ perform (changes placed) d = (d', true) := by
  induction placed generalizing d with
  | nil => exact ⟨d, h, rfl⟩
  | cons p placed ih =>
    obtain ⟨mid, hmid, hrun⟩ := exists_place h p.1 p.2 (changes placed)
    rw [show changes (p :: placed) = place p.1 p.2 ++ changes placed from rfl, hrun]
    exact ih hmid

end Changes

theorem nodup_contents (t : Task) (r : Result) : ((contents t r).map Prod.fst).Nodup := by
  rw [show (contents t r).map Prod.fst = files from rfl]
  decide

theorem not_isTemporary_of_mem_files (h : name ∈ files) : isTemporary name = false := by
  revert name
  decide

end RankedPlans.Archive
