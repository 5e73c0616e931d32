import RankedPlans.Archive.FileTree

/-!
File names with several parts. A name is followed from a directory at a path of the tree: a part that
names nothing or one dot stays where it is, two dots lead to the directory above, and all else leads
below. Only a directory can be left by a dot. The name of one dot means the starting point itself, which
may be a file or nothing at all.
-/

namespace RankedPlans.FileTree

/-- How many bytes a part of a name may have. -/
def partLimit : Nat := 255

/-- Whether a part of a name stays in the directory. -/
def stays (part : String) : Bool :=
  part = "" || part = "."

/-- The path that the parts of a name lead to. -/
def follow? (t : FileTree) : List String → List String → Option (List String)
  | path, [] => some path
  | path, part :: rest =>
    if stays part || part = ".." then
      match t.at? path with
      | some (directory _) => follow? t (if part = ".." then path.dropLast else path) rest
      | _ => none
    else if partLimit < part.utf8ByteSize then none
    else follow? t (path ++ [part]) rest

/-- The parts of a name. None has a zero character, and a slash at the front would leave the tree. -/
def parts? (name : String) : Option (List String) :=
  if name.contains '\x00' || name.startsWith "/" then none else some (name.splitOn "/")

/-- The path of the file that a name means. A name that can only mean a directory is no name of a file. -/
def locate? (t : FileTree) (top : List String) (name : String) : Option (List String) :=
  if name = "." then some top
  else do
    let parts ← parts? name
    let last := parts.getLastD ""
    if stays last || last = ".." then none else follow? t top parts

/-- Makes the directories that the parts of a name lead through, up to the first that cannot be made. -/
def makeAlong (t : FileTree) : List String → List String → FileTree × Option (List String)
  | path, [] => (t, some path)
  | path, part :: rest =>
    if part = ".." then makeAlong t path.dropLast rest
    else if partLimit < part.utf8ByteSize then (t, none)
    else
      match t.makeDirectory? (path ++ [part]) with
      | some t => makeAlong t (path ++ [part]) rest
      | none => (t, none)

/-- Makes the directory that a name means and all on the way to it, and says whether it is there at the
end. A name that ends with a dot asks for the last of them to be there before. -/
def makeDirectories (t : FileTree) (top : List String) (name : String) : FileTree × Bool :=
  if name = "." then
    let (t, path) := makeAlong t [] top
    (t, path.isSome)
  else
    match parts? name with
    | none => (t, false)
    | some parts =>
      let steps := top ++ parts.filter fun part => !stays part
      if (parts.filter (· ≠ "")).getLast? = some "." then
        let (made, path) := makeAlong t [] steps.dropLast
        match path.bind fun path => follow? made path (steps.getLast?.toList ++ ["."]) with
        | some _ => (made, true)
        | none => (made, false)
      else
        let (t, path) := makeAlong t [] steps
        (t, path.isSome)

end RankedPlans.FileTree
