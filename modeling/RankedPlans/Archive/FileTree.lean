import RankedPlans.Entries

/-!
Files and directories as data. A directory gives names to files and further directories; what cannot
be done leaves no tree.
-/

namespace RankedPlans

inductive FileTree where
  | file (bytes : List UInt8)
  | directory (entries : List (String × FileTree))

/-- The content of a directory. -/
abbrev Directory := Entries FileTree

namespace Directory

/-- The bytes of a file. -/
def file? (d : Directory) (name : String) : Option (List UInt8) :=
  match d.get? name with
  | some (.file bytes) => some bytes
  | _ => none

/-- The names of the files, without those of directories. -/
def fileNames (d : Directory) : List String :=
  d.filterMap fun
    | (name, .file _) => some name
    | (_, .directory _) => none

/-- Writes a whole file. A directory of that name stands in the way. -/
def write? (d : Directory) (name : String) (bytes : List UInt8) : Option Directory :=
  match d.get? name with
  | some (.directory _) => none
  | _ => some (d.put name (.file bytes))

/-- Gives a file a new name. A file that has it already gives way; a directory does not. -/
def rename? (d : Directory) (old new : String) : Option Directory := do
  let bytes ← d.file? old
  Directory.write? (d.erase old) new bytes

/-- Deletes a file. -/
def delete? (d : Directory) (name : String) : Option Directory :=
  (d.file? name).map fun _ => d.erase name

/-- Makes a directory, unless there is one of that name. A file of that name stands in the way. -/
def makeDirectory? (d : Directory) (name : String) : Option Directory :=
  match d.get? name with
  | some (.file _) => none
  | some (.directory _) => some d
  | none => some (d.put name (.directory []))

end Directory

namespace FileTree

/-- What is at a path, given by the names on it. -/
def at? : List String → FileTree → Option FileTree
  | [], t => some t
  | _ :: _, file _ => none
  | name :: rest, directory d => (Entries.get? d name).bind (at? rest)

/-- The bytes of the file at a path. -/
def file? (path : List String) (t : FileTree) : Option (List UInt8) :=
  match at? path t with
  | some (file bytes) => some bytes
  | _ => none

/-- Changes the directory that holds the last name of a path. -/
def change? (f : Directory → String → Option Directory) : List String → FileTree → Option FileTree
  | _, file _ => none
  | [], directory _ => none
  | [name], directory d => (f d name).map directory
  | name :: rest, directory d => do
    let t ← (Entries.get? d name).bind (change? f rest)
    return directory (Entries.put name t d)

/-- Writes a whole file at a path. -/
def write? (path : List String) (bytes : List UInt8) (t : FileTree) : Option FileTree :=
  change? (fun d name => d.write? name bytes) path t

/-- Deletes the file at a path. -/
def delete? (path : List String) (t : FileTree) : Option FileTree :=
  change? Directory.delete? path t

/-- Makes the directory at a path, unless it is there. What leads to it has to be there. -/
def makeDirectory? (path : List String) (t : FileTree) : Option FileTree :=
  change? Directory.makeDirectory? path t

end FileTree

end RankedPlans
