import RankedPlans.Archive.FileTree
import RankedPlans.Report.Basic

/-!
Archives: directories that hold a report in four files. Each file is written under a temporary name
and then renamed, so at every moment it is missing or whole.
-/

namespace RankedPlans.Archive

/-- The file that holds the canonical text of the task. -/
def taskFile : String := "task.json"

/-- The file that holds the canonical text of the result. -/
def resultFile : String := "result.json"

/-- The file that holds the canonical text of the plans alone. -/
def plansFile : String := "plans.json"

/-- The file that holds the digest of the result. -/
def digestFile : String := "digest.txt"

/-- All files of an archive. -/
def files : List String :=
  [taskFile, resultFile, plansFile, digestFile]

/-- What temporary names start with. -/
def temporaryMark : String := ".tmp_"

/-- Whether a name is a temporary one. -/
def isTemporary (name : String) : Bool :=
  temporaryMark.toList.isPrefixOf name.toList

/-- A change to the directory. -/
inductive Operation where
  | write (name : String) (bytes : List UInt8)
  | rename (old new : String)
deriving DecidableEq, Repr

/-- The directory after a change. -/
def Operation.perform? (d : Directory) : Operation → Option Directory
  | write name bytes => d.write? name bytes
  | rename old new => d.rename? old new

/-- Makes changes in turn up to the first that cannot be made, and says whether all were made. -/
def perform : List Operation → Directory → Directory × Bool
  | [], d => (d, true)
  | op :: rest, d =>
    match op.perform? d with
    | some d => perform rest d
    | none => (d, false)

/-- Puts a file in place. -/
def place (name : String) (bytes : List UInt8) : List Operation :=
  [.write (temporaryMark ++ name) bytes, .rename (temporaryMark ++ name) name]

/-- All changes that write a report. -/
def operations (r : Report) : List Operation :=
  place taskFile (Utf8.encode r.task.canonical) ++
    place resultFile (Utf8.encode r.result.canonical) ++
    place plansFile (Utf8.encode r.result.canonicalPlans) ++
    place digestFile (Utf8.encode r.result.digest.text)

/-- Writes a report into a directory. -/
def write (r : Report) (d : Directory) : Directory × Bool :=
  perform (operations r) d

/-- Writes a report to a place, where a directory is made if there is nothing. A file stands in the
way. -/
def writeAt (r : Report) : Option FileTree → Option FileTree × Bool
  | some (.file bytes) => (some (.file bytes), false)
  | some (.directory d) => ((some (.directory (write r d).1)), (write r d).2)
  | none => ((some (.directory (write r []).1)), (write r []).2)

end RankedPlans.Archive
