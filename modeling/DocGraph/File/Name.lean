import DocGraph.Document

/-!
# DocGraph: what a file name tells

The name of a document tells two things: whether the file is compressed, by the extension of the
last part of the name, and which format the text has, by how the whole name ends.
-/

namespace DocGraph.FileName

/-- The last part of a path. Slashes at the end and points that stand for the directory itself do
not count, and a path that ends by going up has none. -/
def lastPart? (name : String) : Option (List Char) :=
  match ((name.toList.splitOn '/').filter fun part => part ≠ [] && part ≠ ['.']).getLast? with
  | some ['.', '.'] => none
  | last => last

/-- What stands behind the last point of the last part. A point at its very start does not
count. -/
def extension? (name : String) : Option (List Char) :=
  (lastPart? name).bind fun part =>
    match (part.splitOn '.').reverse with
    | ext :: before => if before = [] || before = [[]] then none else some ext
    | [] => none

/-- Whether the file is decompressed when it is loaded. -/
def isGzipped (name : String) : Bool :=
  extension? name = some ['g', 'z']

/-- The name in lower case; only letters of ASCII have one. -/
def lower (name : String) : List Char :=
  name.toList.map Char.toLower

/-- The name that tells the format: in lower case, and without the ending of compressed files. -/
def formatName (name : String) : List Char :=
  (['.', 'g', 'z'].isSuffixOf? (lower name)).getD (lower name)

/-- The format of the text in a file of this name. -/
def format (name : String) : Format :=
  if ['.', 'y', 'a', 'm', 'l'].isSuffixOf (formatName name)
      || ['.', 'y', 'm', 'l'].isSuffixOf (formatName name) then .yaml
  else .json

end DocGraph.FileName
