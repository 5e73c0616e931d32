import RankedPlans.Archive.FileTree
import RankedPlans.Proofs.Entries

/-! What the changes to a directory do to its files, name by name. -/

namespace RankedPlans.Directory

variable {d d' : Directory} {name other old new : String} {bytes : List UInt8}

/-- A directory that holds no further directory under any name. -/
def Flat (d : Directory) : Prop :=
  ∀ name entries, d.get? name ≠ some (.directory entries)

theorem file?_eq_some_iff : d.file? name = some bytes ↔ d.get? name = some (.file bytes) := by
  unfold file?
  split
  · rename_i held heq
    rw [heq, Option.some.injEq, Option.some.injEq, FileTree.file.injEq]
  · rename_i hne
    exact iff_of_false nofun fun heq => hne bytes heq

theorem mem_fileNames_iff : name ∈ d.fileNames ↔ ∃ bytes, (name, .file bytes) ∈ d := by
  rw [fileNames, List.mem_filterMap]
  constructor
  · rintro ⟨⟨other, held⟩, hmem, heq⟩
    cases held with
    | file bytes =>
      obtain rfl := Option.some.inj heq
      exact ⟨bytes, hmem⟩
    | directory entries => cases heq
  · rintro ⟨bytes, hmem⟩
    exact ⟨(name, .file bytes), hmem, rfl⟩

theorem mem_fileNames_of_file? (h : d.file? name = some bytes) : name ∈ d.fileNames :=
  mem_fileNames_iff.mpr ⟨bytes, Entries.mem_of_get? (file?_eq_some_iff.mp h)⟩

theorem flat_nil : Flat [] :=
  nofun

section Put

theorem file?_put (d : Directory) (name other : String) (bytes : List UInt8) :
    file? (d.put other (.file bytes)) name = if name = other then some bytes else d.file? name := by
  rw [file?, Entries.get?_put]
  by_cases h : name = other
  · rw [if_pos h, if_pos h]
  · rw [if_neg h, if_neg h, file?]

theorem mem_fileNames_put (d : Directory) (name other : String) (bytes : List UInt8) :
    name ∈ fileNames (d.put other (.file bytes)) ↔ name = other ∨ name ∈ d.fileNames := by
  by_cases h : name = other
  · have hheld : file? (d.put other (.file bytes)) name = some bytes := by rw [file?_put, if_pos h]
    exact iff_of_true (mem_fileNames_of_file? hheld) (.inl h)
  · simp only [mem_fileNames_iff, Entries.mem_put_of_ne h, h, false_or]

theorem Flat.put (h : d.Flat) (other : String) (bytes : List UInt8) : Flat (d.put other (.file bytes)) := by
  intro name entries
  rw [Entries.get?_put]
  split
  · nofun
  · exact h name entries

end Put

section Erase

theorem file?_erase (d : Directory) (name other : String) :
    file? (d.erase other) name = if name = other then none else d.file? name := by
  rw [file?, Entries.get?_erase]
  by_cases h : name = other
  · rw [if_pos h, if_pos h]
  · rw [if_neg h, if_neg h, file?]

theorem mem_fileNames_erase (d : Directory) (name other : String) :
    name ∈ fileNames (d.erase other) ↔ name ≠ other ∧ name ∈ d.fileNames := by
  simp only [mem_fileNames_iff, Entries.erase, List.mem_filter, decide_eq_true_eq,
    and_comm (b := name ≠ other), exists_and_left]

theorem Flat.erase (h : d.Flat) (other : String) : Flat (d.erase other) := by
  intro name entries
  rw [Entries.get?_erase]
  split
  · nofun
  · exact h name entries

end Erase

theorem write?_eq_some (h : d.write? name bytes = some d') : d' = d.put name (.file bytes) := by
  unfold write? at h
  split at h
  · cases h
  · exact (Option.some.inj h).symm

theorem Flat.write?_eq (h : d.Flat) (name : String) (bytes : List UInt8) :
    d.write? name bytes = some (d.put name (.file bytes)) := by
  unfold write?
  split
  · rename_i entries hdir
    exact absurd hdir (h name entries)
  · rfl

theorem rename?_eq_some (h : d.rename? old new = some d') :
    ∃ bytes, d.file? old = some bytes ∧ d' = (d.erase old).put new (.file bytes) := by
  obtain ⟨bytes, hbytes, hwrite⟩ := Option.bind_eq_some_iff.mp h
  exact ⟨bytes, hbytes, write?_eq_some hwrite⟩

theorem Flat.rename?_eq (h : d.Flat) (hold : d.file? old = some bytes) (new : String) :
    d.rename? old new = some ((d.erase old).put new (.file bytes)) := by
  rw [rename?, hold]
  exact (h.erase old).write?_eq new bytes

end RankedPlans.Directory
