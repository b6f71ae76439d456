/-!
# DocGraph: what a file name stands for
-/

namespace DocGraph

/-- What is found under the name of a file. -/
inductive FileEntry where
  /-- Nothing that can be opened. -/
  | missing
  /-- Something that can be opened but not read. -/
  | directory
  | file (bytes : List UInt8)
deriving DecidableEq

end DocGraph
