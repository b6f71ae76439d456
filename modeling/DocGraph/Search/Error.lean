/-!
# DocGraph: refused arguments

A search refuses an argument before it looks at a document. What is missing from a document is
never an error.
-/

namespace DocGraph.Search

/-- The names a comparator can be asked for by. -/
def comparatorNames : List String := ["strict", "structural"]

inductive Error where
  | blankKey
  | unknownComparator (name : String)
deriving DecidableEq

def Error.message : Error → String
  | .blankKey => "invalid argument: target key must be a non-blank string"
  | .unknownComparator name =>
    "invalid argument: `" ++ name ++ "` is not a comparator (expected one of: "
      ++ ", ".intercalate comparatorNames ++ ")"

end DocGraph.Search
