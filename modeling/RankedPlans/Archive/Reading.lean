import RankedPlans.Archive.Writing
import RankedPlans.Text.Blank

/-!
Reading an archive. Nothing is taken on trust: there are exactly the four files, task and result are
in canonical text, and plans and digest agree with the result.
-/

namespace RankedPlans

namespace Archive

/-- Why a directory is not an archive. -/
inductive Fault where
  | missing (file : String)
  | extra (file : String)
  | malformed (file : String)
  | notCanonical (file : String)
  | plansDiffer
  | digestDiffers (stored computed : String)
deriving DecidableEq, Repr

/-- The wording of a fault. -/
def Fault.message : Fault → String
  | missing file => "missing file: " ++ file
  | extra file => "undeclared extra file: " ++ file
  | malformed file => file ++ " does not parse"
  | notCanonical file => file ++ " is not canonical JSON"
  | plansDiffer => "plans.json disagrees with result.json"
  | digestDiffers stored computed =>
    "digest mismatch: stored=" ++ stored ++ ", recomputed=" ++ computed

/-- What an archive holds. -/
structure Content where
  task : Task
  result : Result
  /-- The digest of the result. -/
  digest : ContentHash

/-- The bytes of a file that has to be there. -/
def required (d : Directory) (file : String) : Except Fault (List UInt8) :=
  match d.file? file with
  | some bytes => .ok bytes
  | none => .error (.missing file)

/-- The first file that does not belong to an archive. Temporary files do no harm. -/
def extraFile? (d : Directory) : Option String :=
  d.fileNames.find? fun name => !isTemporary name && !files.contains name

/-- A value that a file holds in canonical text. -/
def canonicalValue {α : Type} (file : String) (read? : List UInt8 → Option α) (text : α → String)
    (bytes : List UInt8) : Except Fault α :=
  match read? bytes with
  | none => .error (.malformed file)
  | some v => if Utf8.encode (text v) = bytes then .ok v else .error (.notCanonical file)

/-- Reads and checks an archive. -/
def read (d : Directory) : Except Fault Content := do
  let taskBytes ← required d taskFile
  let resultBytes ← required d resultFile
  let plansBytes ← required d plansFile
  let digestBytes ← required d digestFile
  if let some name := extraFile? d then throw (.extra name)
  let task ← canonicalValue taskFile (fun bytes => (Task.ofBytes bytes).toOption) Task.canonical
    taskBytes
  let result ← canonicalValue resultFile Result.ofBytes? Result.canonical resultBytes
  if Utf8.encode result.canonicalPlans ≠ plansBytes then throw .plansDiffer
  let computed := result.digest
  let stored := Text.trim (Utf8.lossy digestBytes)
  if computed.text ≠ stored then throw (.digestDiffers stored computed.text)
  return ⟨task, result, computed⟩

/-- Reads the archive at a place. -/
def readAt : Option FileTree → Except Fault Content
  | some (.directory d) => read d
  | _ => .error (.missing taskFile)

end Archive

end RankedPlans
