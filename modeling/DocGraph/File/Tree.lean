import DocGraph.File.Entry

/-!
# DocGraph: files held in memory

A directory is given by the names and the contents of the files below it. A name is followed part
by part: each part but the last must lead to a directory, which exists if a file is below it.
-/

namespace DocGraph

/-- The files below a directory, by their names relative to it. -/
abbrev FileTree := List (String × List UInt8)

namespace FileTree

/-- A part that stays where it is. -/
def isHere (part : List Char) : Bool :=
  part = [] || part = ['.']

/-- The parts of the name of a file. -/
def parts (name : String) : List (List Char) :=
  (name.toList.splitOn '/').filter (!isHere ·)

/-- What is at a place below the directory. -/
def entryAt (files : FileTree) (place : List (List Char)) : FileEntry :=
  match files.find? fun (name, _) => parts name = place with
  | some (_, bytes) => .file bytes
  | none =>
    if place = [] || files.any fun (name, _) => place.isPrefixOf (parts name) then .directory
    else .missing

/-- Follows the parts of a name from a place; `none` where there is no directory to go on from. -/
def follow? (files : FileTree) (place : List (List Char)) :
    List (List Char) → Option (List (List Char))
  | [] => some place
  | part :: rest =>
    if files.entryAt place ≠ .directory then none
    else if isHere part then follow? files place rest
    else if part = ['.', '.'] then
      -- nothing is known above the directory
      if place = [] then none else follow? files place.dropLast rest
    else follow? files (place ++ [part]) rest

/-- What a name stands for. Names from the root of the file system are not known here. -/
def lookup (files : FileTree) (name : String) : FileEntry :=
  if name.isEmpty || name.startsWith "/" then .missing
  else
    match files.follow? [] (name.toList.splitOn '/') with
    | some place => files.entryAt place
    | none => .missing

end FileTree

end DocGraph
