import RankedPlans.Archive.Reading
import RankedPlans.Proofs.Archive.Writing
import RankedPlans.Proofs.Enumeration.CostRange
import RankedPlans.Proofs.Task.Text

/-! What the reading of an archive tells. It succeeds exactly on the directories whose four files hold a task and a
result whose numbers fit, in canonical text and with the plans and the digest of that result; what is written into an
empty directory is read back from it. -/

namespace RankedPlans

/-- A report whose numbers are of the size that records hold. -/
structure Report.Fits (r : Report) : Prop where
  task : r.task.Fits
  result : r.result.Fits

theorem Report.ofTask?_eq {world : String} {t : Task} {h : HeuristicChoice} {request : Request} {policy : Policy}
    {steps : Nat} {result : Result}
    (hresult : (t.enumerate? h.heuristic request policy steps).bind Except.toOption = some result) :
    ofTask? world t h request policy steps = some (.ok ⟨world, h, t, result, policy.symmetry.groupDigest? t⟩) := by
  obtain ⟨outcome, houtcome, hok⟩ := Option.bind_eq_some_iff.mp hresult
  cases outcome with
  | error fault => cases hok
  | ok found =>
    cases hok
    rw [ofTask?, houtcome]

/-- A report fits if its task does and no counter has passed 64 bits: its costs are in range. -/
theorem Report.fits_of_ofTask? {world : String} {t : Task} {h : HeuristicChoice} {request : Request} {policy : Policy}
    {steps : Nat} {r : Report} (hr : ofTask? world t h request policy steps = some (.ok r)) (ht : t.Fits)
    (hs : r.result.statistics.Fits) : r.Fits := by
  unfold ofTask? at hr
  split at hr
  · cases hr
  · cases hr
  · rename_i result hresult
    cases hr
    exact ⟨ht, Task.enumerate?_inRange hresult, hs⟩

namespace Archive

variable {d d' : Directory} {t : Task} {r : Result} {content : Content} {name : String}

theorem bind_eq_ok_iff {ε α β : Type} {x : Except ε α} {f : α → Except ε β} {b : β} :
    x.bind f = .ok b ↔ ∃ a, x = .ok a ∧ f a = .ok b := by
  cases x with
  | error e => exact iff_of_false nofun nofun
  | ok a => simp [Except.bind]

theorem required_eq_ok_iff {bytes : List UInt8} : required d name = .ok bytes ↔ d.file? name = some bytes := by
  unfold required
  split
  · rename_i held heq
    rw [heq, Except.ok.injEq, Option.some.injEq]
  · rename_i hnone
    rw [hnone]
    exact iff_of_false nofun nofun

theorem canonicalValue_eq_ok_iff {α : Type} {file : String} {read? : List UInt8 → Option α} {text : α → String}
    {bytes : List UInt8} {v : α} :
    canonicalValue file read? text bytes = .ok v ↔ read? bytes = some v ∧ Utf8.encode (text v) = bytes := by
  unfold canonicalValue
  cases read? bytes with
  | none => exact iff_of_false nofun nofun
  | some w =>
    simp only [Option.some.injEq]
    split
    · rename_i heq
      rw [Except.ok.injEq]
      exact ⟨fun h => ⟨h, h ▸ heq⟩, And.left⟩
    · rename_i hne
      exact iff_of_false nofun fun ⟨h, heq⟩ => hne (h ▸ heq)

theorem extraFile?_eq_none_iff :
    extraFile? d = none ↔ ∀ name ∈ d.fileNames, isTemporary name = false → name ∈ files := by
  rw [extraFile?, List.find?_eq_none]
  refine forall₂_congr fun name _ => ?_
  cases isTemporary name <;> simp

/-- A directory that holds a task and a result of it. -/
structure Holds (d : Directory) (t : Task) (r : Result) : Prop where
  names : ∀ name, isTemporary name = false → (name ∈ d.fileNames ↔ name ∈ files)
  task : d.file? taskFile = some (Utf8.encode t.canonical)
  result : d.file? resultFile = some (Utf8.encode r.canonical)
  plans : d.file? plansFile = some (Utf8.encode r.canonicalPlans)
  digest : ∃ bytes, d.file? digestFile = some bytes ∧ Text.trim (Utf8.lossy bytes) = r.digest.text

/-- A check that throws is passed by what does not meet its condition. -/
theorem check_eq_ok_iff {p : Prop} [Decidable p] {fault : Fault} {f : PUnit → Except Fault Content}
    {x : Except Fault Content} :
    (if p then (throw fault : Except Fault PUnit).bind f else x) = .ok content ↔ ¬p ∧ x = .ok content := by
  by_cases h : p
  · rw [if_pos h]
    exact iff_of_false nofun fun hno => hno.1 h
  · rw [if_neg h, and_iff_right h]

theorem fits_of_ofBytes {bytes : List UInt8} (h : (Task.ofBytes bytes).toOption = some t) : t.Fits := by
  cases hread : Task.ofBytes bytes with
  | error e =>
    rw [hread] at h
    cases h
  | ok t' =>
    rw [hread] at h
    cases h
    exact Task.fits_of_ofLeading hread

/-- Four files and no further one. -/
theorem names_of_extraFile? (hextra : extraFile? d = none) (hfiles : ∀ file ∈ files, ∃ bytes, d.file? file = some bytes)
    (name : String) (hname : isTemporary name = false) : name ∈ d.fileNames ↔ name ∈ files := by
  refine ⟨fun hmem => extraFile?_eq_none_iff.mp hextra name hmem hname, fun hmem => ?_⟩
  obtain ⟨bytes, hbytes⟩ := hfiles name hmem
  exact Directory.mem_fileNames_of_file? hbytes

theorem Holds.extraFile? (h : Holds d t r) : extraFile? d = none :=
  extraFile?_eq_none_iff.mpr fun name hmem hname => (h.names name hname).mp hmem

/-- Reading succeeds on the directories that hold a task and a result whose numbers fit, and gives these. -/
theorem read_eq_ok_iff : read d = .ok content ↔ content.task.Fits ∧ content.result.Fits ∧
    Holds d content.task content.result ∧ content.digest = content.result.digest := by
  obtain ⟨task, result, digest⟩ := content
  unfold read
  simp only [bind, bind_eq_ok_iff, required_eq_ok_iff]
  cases hextra : extraFile? d with
  | some name =>
    refine iff_of_false ?_ fun h => ?_
    · rintro ⟨_, _, _, _, _, _, _, _, ⟨⟩⟩
    · cases hextra.symm.trans h.2.2.1.extraFile?
  | none =>
    simp only [bind_eq_ok_iff, canonicalValue_eq_ok_iff, check_eq_ok_iff, ne_eq, not_not]
    constructor
    · rintro ⟨taskBytes, htask, resultBytes, hresult, plansBytes, hplans, digestBytes, hdigest, task, ⟨hread, rfl⟩,
        result, ⟨hread', rfl⟩, rfl, hsame, hok⟩
      cases hok
      have hfiles : ∀ file ∈ files, ∃ bytes, d.file? file = some bytes := by
        simp only [files, List.forall_mem_cons]
        exact ⟨⟨_, htask⟩, ⟨_, hresult⟩, ⟨_, hplans⟩, ⟨_, hdigest⟩, List.forall_mem_nil _⟩
      exact ⟨fits_of_ofBytes hread, Result.ofBytes?_fits hread',
        ⟨names_of_extraFile? hextra hfiles, htask, hresult, hplans, digestBytes, hdigest, hsame.symm⟩, rfl⟩
    · rintro ⟨htask, hresult, h, rfl⟩
      obtain ⟨bytes, hbytes, htrim⟩ := h.digest
      have hread : (Task.ofBytes (Utf8.encode task.canonical)).toOption = some task := by
        rw [Task.ofBytes_encode_canonical htask]
        rfl
      exact ⟨_, h.task, _, h.result, _, h.plans, bytes, hbytes, task, ⟨hread, rfl⟩, result,
        ⟨Result.ofBytes?_canonical hresult, rfl⟩, rfl, htrim.symm, rfl⟩

theorem Holds.read_eq (h : Holds d t r) (ht : t.Fits) (hr : r.Fits) : read d = .ok ⟨t, r, r.digest⟩ :=
  read_eq_ok_iff.mpr ⟨ht, hr, h, rfl⟩

/-- A directory with the files of an archive as they are written holds the task and the result. -/
theorem holds_of_contents (hheld : ∀ name ∈ files, d.file? name = Entries.get? (contents t r) name)
    (hnames : ∀ name, isTemporary name = false → (name ∈ d.fileNames ↔ name ∈ files)) : Holds d t r := by
  simp only [files, List.forall_mem_cons] at hheld
  obtain ⟨htask, hresult, hplans, hdigest, -⟩ := hheld
  exact ⟨hnames, htask, hresult, hplans, _, hdigest, ContentHash.trim_lossy_text _ _⟩

/-- What is written into an empty directory is held there. -/
theorem write_nil (report : Report) :
    (write report []).2 = true ∧ Holds (write report []).1 report.task report.result := by
  obtain ⟨d', -, hrun⟩ := perform_changes_of_flat Directory.flat_nil (contents report.task report.result)
  have hwrite : write report [] = (d', true) := hrun
  rw [hwrite]
  have hnd := nodup_contents report.task report.result
  refine ⟨rfl, holds_of_contents (fun name hname => ?_) fun name hname => ?_⟩
  · exact (perform_changes hnd hrun (not_isTemporary_of_mem_files hname)).1.trans Option.or_none
  · exact (perform_changes hnd hrun hname).2.trans (or_iff_left List.not_mem_nil)

/-- Whatever fits is read back from the directory that it was written into. -/
theorem read_write_nil {report : Report} (h : report.Fits) :
    read (write report []).1 = .ok ⟨report.task, report.result, report.result.digest⟩ :=
  (write_nil report).2.read_eq h.task h.result

/-- Archives are faithful: the report of a run is written into an empty directory and read back from it, with its task,
its result and the digest of that; and a directory that can be read has no files but the four and temporary ones, and
these are byte for byte the canonical texts of the task, the result and its plans, and the digest of the result between
white space. -/
theorem read_faithful :
    (∀ (world : String) (t : Task) (h : HeuristicChoice) (request : Request) (policy : Policy) (steps : Nat)
      (report : Report), Report.ofTask? world t h request policy steps = some (.ok report) → t.Fits →
      report.result.statistics.Fits →
      (write report []).2 = true ∧
        read (write report []).1 = .ok ⟨report.task, report.result, report.result.digest⟩) ∧
    ∀ (d : Directory) (content : Content), read d = .ok content →
      (∀ name, isTemporary name = false → (name ∈ d.fileNames ↔ name ∈ files)) ∧
      (∃ text, content.task.toJson.canonical? = .ok text ∧ d.file? taskFile = some (Utf8.encode text)) ∧
      (∃ text, content.result.toJson.canonical? = .ok text ∧ d.file? resultFile = some (Utf8.encode text)) ∧
      (∃ text, content.result.plansJson.canonical? = .ok text ∧ d.file? plansFile = some (Utf8.encode text)) ∧
      (∃ bytes, d.file? digestFile = some bytes ∧ Text.trim (Utf8.lossy bytes) = content.digest.text) ∧
      content.digest = content.result.digest := by
  refine ⟨fun world t h request policy steps report hreport ht hs => ?_, fun d content hread => ?_⟩
  · exact ⟨(write_nil report).1, read_write_nil (Report.fits_of_ofTask? hreport ht hs)⟩
  · obtain ⟨htask, hresult, h, hdigest⟩ := read_eq_ok_iff.mp hread
    rw [hdigest]
    exact ⟨h.names, ⟨_, Task.canonical?_toJson htask, h.task⟩, ⟨_, Result.canonical?_toJson hresult, h.result⟩,
      ⟨_, Result.canonical?_plansJson hresult, h.plans⟩, h.digest, rfl⟩

/-- A lamp that can be switched on. -/
def lamp : Task where
  vars := #[⟨"lamp", ["off", "on"]⟩]
  operators := #[⟨"press", 1, [⟨0, 0⟩], [⟨0, 1⟩]⟩]
  initial := #[0]
  goal := [⟨0, 1⟩]
  normalized := by decide +kernel
  faultless := by decide +kernel

theorem lamp_fits : lamp.Fits := by
  decide

/-- The counters of a search that takes one operator to a goal. -/
def oneMove : Statistics :=
  { expanded := 2, generated := 1, evaluated := 2, rounds := 1, candidates := 1, states := 2, edges := 2 }

/-- The report on the lamp when one plan is asked for. -/
def lampReport : Report where
  world := "lamp"
  heuristic := .blind
  task := lamp
  result := ⟨[⟨1, ["press"]⟩], some 1, false, false, false, .planLimitReached, oneMove⟩
  symmetryDigest := none

theorem ofTask?_lamp : Report.ofTask? "lamp" lamp .blind { count := some 1 } {} 20 = some (.ok lampReport) :=
  Report.ofTask?_eq (by decide +kernel)

theorem lampReport_fits : lampReport.Fits :=
  Report.fits_of_ofTask? ofTask?_lamp lamp_fits (by decide)

theorem read_faithful_lamp : (write lampReport []).2 = true ∧
    read (write lampReport []).1 = .ok ⟨lamp, lampReport.result, lampReport.result.digest⟩ ∧
    (write lampReport []).1.file? taskFile = some (Utf8.encode lamp.canonical) := by
  have hwritten := read_faithful.1 "lamp" lamp .blind { count := some 1 } {} 20 lampReport ofTask?_lamp lamp_fits
    (by decide)
  obtain ⟨-, ⟨text, htext, hheld⟩, -⟩ := read_faithful.2 _ _ hwritten.2
  obtain rfl := Except.ok.inj ((Task.canonical?_toJson lamp_fits).symm.trans htext)
  exact ⟨hwritten.1, hwritten.2, hheld⟩

end Archive

end RankedPlans
