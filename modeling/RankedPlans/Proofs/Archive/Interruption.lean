import RankedPlans.Proofs.Archive.Reading

/-! The writing of an archive over an earlier one, stopped after any number of its changes. The task is exchanged two
changes before the result, and nothing that is read ties a task to a result: in between, the archive is read as the new
task with the earlier result. After that the digest guards the rest, so what is read is the new task and result. -/

namespace RankedPlans.Archive

variable {a b : Report} {base d d' : Directory} {n i : Nat} {name : String}

/-- A report that was written and then partly written over by another: each file holds the one or the other. -/
theorem file?_of_interrupted (hwritten : write a base = (d, true))
    (hrun : perform ((operations b).take n) d = (d', true)) (hname : isTemporary name = false)
    {old new : List UInt8} (hold : (contents a.task a.result)[i]? = some (name, old))
    (hnew : (contents b.task b.result)[i]? = some (name, new)) :
    d'.file? name = some (if 2 * (i + 1) ≤ n then new else old) := by
  rw [operations_eq] at hrun
  have hheld : d.file? name = some old := by
    rw [(perform_changes (nodup_contents _ _) hwritten hname).1, ← List.take_length (l := contents a.task a.result),
      Entries.get?_take (nodup_contents _ _) hold, if_pos (List.getElem?_eq_some_iff.mp hold).1]
    rfl
  rw [perform_take_file? (nodup_contents _ _) hrun hname hnew, hheld]
  split <;> rfl

/-- No file comes or goes when a report is written over another. -/
theorem fileNames_of_interrupted (hwritten : write a base = (d, true))
    (hrun : perform ((operations b).take n) d = (d', true))
    (hnames : ∀ name ∈ base.fileNames, isTemporary name = false → name ∈ files) (hname : isTemporary name = false) :
    name ∈ d'.fileNames ↔ name ∈ files := by
  have hfiles (t : Task) (r : Result) : (contents t r).map Prod.fst = files := rfl
  rw [operations_eq] at hrun
  rw [(perform_take_changes (nodup_contents _ _) hrun hname).2, (perform_changes (nodup_contents _ _) hwritten hname).2,
    hfiles]
  constructor
  · rintro (hmem | hmem | hmem)
    · rw [← hfiles b.task b.result]
      exact List.mem_map.mpr <| (List.mem_map.mp hmem).imp fun _ h => ⟨List.mem_of_mem_take h.1, h.2⟩
    · exact hmem
    · exact hnames name hmem hname
  · exact fun hmem => .inr (.inl hmem)

/-- Before the result is exchanged and after the last change the directory holds a task and a result. -/
theorem holds_of_interrupted (hwritten : write a base = (d, true))
    (hrun : perform ((operations b).take n) d = (d', true))
    (hnames : ∀ name ∈ base.fileNames, isTemporary name = false → name ∈ files) (hn : n < 4 ∨ 8 ≤ n) :
    Holds d' (if 2 ≤ n then b.task else a.task) (if 4 ≤ n then b.result else a.result) := by
  -- plans and digest are exchanged later than the result, but at none of these stops
  have hplans : 6 ≤ n ↔ 4 ≤ n := by omega
  have hdigest : 8 ≤ n ↔ 4 ≤ n := by omega
  refine ⟨fun name => fileNames_of_interrupted hwritten hrun hnames, ?_, ?_, ?_,
    Utf8.encode (if 4 ≤ n then b.result else a.result).digest.text, ?_, ContentHash.trim_lossy_text _ _⟩
  · rw [file?_of_interrupted (i := 0) hwritten hrun (by decide) rfl rfl, apply_ite Task.canonical, apply_ite Utf8.encode]
  · rw [file?_of_interrupted (i := 1) hwritten hrun (by decide) rfl rfl, apply_ite Result.canonical,
      apply_ite Utf8.encode]
  · rw [file?_of_interrupted (i := 2) hwritten hrun (by decide) rfl rfl, apply_ite Result.canonicalPlans,
      apply_ite Utf8.encode]
    simp only [hplans]
  · rw [file?_of_interrupted (i := 3) hwritten hrun (by decide) rfl rfl, apply_ite Result.digest,
      apply_ite ContentHash.text, apply_ite Utf8.encode]
    simp only [hdigest]

theorem fits_interrupted (ha : a.Fits) (hb : b.Fits) (n : Nat) :
    (if 2 ≤ n then b.task else a.task).Fits ∧ (if 4 ≤ n then b.result else a.result).Fits := by
  constructor
  · split
    · exact hb.task
    · exact ha.task
  · split
    · exact hb.result
    · exact ha.result

/-- Whatever is read after an interruption: the task is the new one from the second change on, the result from the
fourth on. -/
theorem eq_of_read_interrupted {content : Content} (ha : a.Fits) (hb : b.Fits) (hwritten : write a base = (d, true))
    (hrun : perform ((operations b).take n) d = (d', true)) (hread : read d' = .ok content) :
    content.task = (if 2 ≤ n then b.task else a.task) ∧ content.result = if 4 ≤ n then b.result else a.result := by
  obtain ⟨htask, hresult, h, -⟩ := read_eq_ok_iff.mp hread
  have htaskFile := file?_of_interrupted (i := 0) hwritten hrun (by decide) rfl rfl
  have hresultFile := file?_of_interrupted (i := 1) hwritten hrun (by decide) rfl rfl
  -- what was read has the bytes in the file as its canonical text, and these tell the value
  rw [h.task, ← apply_ite Utf8.encode, ← apply_ite Task.canonical, Option.some.injEq] at htaskFile
  rw [h.result, ← apply_ite Utf8.encode, ← apply_ite Result.canonical, Option.some.injEq] at hresultFile
  obtain ⟨htaskFits, hresultFits⟩ := fits_interrupted ha hb n
  exact ⟨Task.eq_of_encode_canonical htask htaskFits htaskFile,
    Result.eq_of_encode_canonical hresult hresultFits hresultFile⟩

/-- What an interrupted writing leaves to be read. Where reading succeeds, task and result are of one report, except
after the second and the third change, when they are the new task and the earlier result. If the directory had no files
but those of an archive, reading does succeed before the fourth change and after the last one. And a writing that fails
has stopped after some number of changes. -/
theorem read_interrupted {a b : Report} {base d d' : Directory} {n : Nat} (ha : a.Fits) (hb : b.Fits)
    (hwritten : write a base = (d, true)) (hrun : perform ((operations b).take n) d = (d', true)) :
    (∀ content, read d' = .ok content →
      n < 2 ∧ content.task = a.task ∧ content.result = a.result ∨
      (n = 2 ∨ n = 3) ∧ content.task = b.task ∧ content.result = a.result ∨
      3 < n ∧ content.task = b.task ∧ content.result = b.result) ∧
    ((∀ name ∈ base.fileNames, isTemporary name = false → name ∈ files) → n < 4 ∨ 8 ≤ n →
      ∃ content, read d' = .ok content) ∧
    ∃ m, perform ((operations b).take m) d = ((write b d).1, true) := by
  refine ⟨fun content hread => ?_, fun hnames hn => ?_, ?_⟩
  · obtain ⟨htask, hresult⟩ := eq_of_read_interrupted ha hb hwritten hrun hread
    rw [htask, hresult]
    rcases (by omega : n < 2 ∨ (n = 2 ∨ n = 3) ∨ 3 < n) with hfew | hsome | hmany
    · rw [if_neg (by omega), if_neg (by omega)]
      exact .inl ⟨hfew, rfl, rfl⟩
    · rw [if_pos (by omega), if_neg (by omega)]
      exact .inr (.inl ⟨hsome, rfl, rfl⟩)
    · rw [if_pos (by omega), if_pos (by omega)]
      exact .inr (.inr ⟨hmany, rfl, rfl⟩)
  · obtain ⟨htask, hresult⟩ := fits_interrupted ha hb n
    exact ⟨_, (holds_of_interrupted hwritten hrun hnames hn).read_eq htask hresult⟩
  · obtain ⟨m, -, hm⟩ := exists_perform_take (operations b) d
    exact ⟨m, hm⟩

/-- A door that can be opened. -/
def door : Task where
  vars := #[⟨"door", ["shut", "open"]⟩]
  operators := #[⟨"push", 2, [⟨0, 0⟩], [⟨0, 1⟩]⟩]
  initial := #[0]
  goal := [⟨0, 1⟩]
  normalized := by decide +kernel
  faultless := by decide +kernel

/-- The report on the door when one plan is asked for. -/
def doorReport : Report where
  world := "door"
  heuristic := .blind
  task := door
  result := ⟨[⟨2, ["push"]⟩], some 2, false, false, false, .planLimitReached, oneMove⟩
  symmetryDigest := none

theorem door_fits : door.Fits := by
  decide

theorem ofTask?_door : Report.ofTask? "door" door .blind { count := some 1 } {} 20 = some (.ok doorReport) :=
  Report.ofTask?_eq (by decide +kernel)

theorem doorReport_fits : doorReport.Fits :=
  Report.fits_of_ofTask? ofTask?_door door_fits (by decide)

/-- Both reports are written one over the other, as far as that goes. -/
theorem exists_lamp_door (k : Nat) : ∃ d d', write lampReport [] = (d, true) ∧
    perform ((operations doorReport).take (2 * k)) d = (d', true) := by
  obtain ⟨d, hflat, hwritten⟩ := perform_changes_of_flat Directory.flat_nil (contents lamp lampReport.result)
  obtain ⟨d', -, hrun⟩ := perform_changes_of_flat hflat ((contents door doorReport.result).take k)
  refine ⟨d, d', hwritten, ?_⟩
  rw [operations_eq, take_changes]
  exact hrun

theorem read_interrupted_lamp_door : ∃ d d' content, write lampReport [] = (d, true) ∧
    perform ((operations doorReport).take 8) d = (d', true) ∧ read d' = .ok content ∧ content.task = door ∧
    content.result = doorReport.result := by
  obtain ⟨d, d', hwritten, hrun⟩ := exists_lamp_door 4
  have hspec := read_interrupted lampReport_fits doorReport_fits hwritten hrun
  obtain ⟨content, hread⟩ := hspec.2.1 (fun _ hmem => absurd hmem List.not_mem_nil) (.inr (Nat.le_refl 8))
  rcases hspec.1 content hread with hfew | hsome | hmany
  · exact absurd hfew.1 (by decide)
  · exact absurd hsome.1 (by decide)
  · exact ⟨d, d', content, hwritten, hrun, hread, hmany.2⟩

/-- The report on a door is written over that on a lamp and stops after two changes. What is read is no report that was
ever written: the task is the door, the result that of the lamp. -/
theorem lamp_read_as_door : ∃ d d' content,
    Report.ofTask? "lamp" lamp .blind { count := some 1 } {} 20 = some (.ok lampReport) ∧
    Report.ofTask? "door" door .blind { count := some 1 } {} 20 = some (.ok doorReport) ∧
    write lampReport [] = (d, true) ∧ perform ((operations doorReport).take 2) d = (d', true) ∧
    read d' = .ok content ∧ ¬(content.task = lampReport.task ∧ content.result = lampReport.result) ∧
    ¬(content.task = doorReport.task ∧ content.result = doorReport.result) := by
  obtain ⟨d, d', hwritten, hrun⟩ := exists_lamp_door 1
  have hheld : Holds d' door lampReport.result :=
    holds_of_interrupted hwritten hrun (fun _ hmem => absurd hmem List.not_mem_nil) (.inl (by decide))
  have htask : door ≠ lamp := fun heq => absurd (congrArg (fun t => t.operators) heq) (by decide)
  have hresult : lampReport.result ≠ doorReport.result := by decide
  exact ⟨d, d', _, ofTask?_lamp, ofTask?_door, hwritten, hrun, hheld.read_eq door_fits lampReport_fits.result,
    fun h => htask h.1, fun h => hresult h.2⟩

end RankedPlans.Archive
