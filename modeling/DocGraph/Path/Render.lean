import DocGraph.Value

/-!
# DocGraph: writing paths

A path to a child is its parent's path and its key: a field after a point, a position in
brackets, and the first key bare. Nothing is quoted, so only plain keys read back.
-/

namespace DocGraph.Path

/-- The path of the child `key` of the container at `parent`; the root has no path. -/
def child (parent : Option String) (key : Key) : String :=
  match parent, key with
  | none, key => key.text
  | some parent, .field name => parent ++ "." ++ name
  | some parent, .index position => parent ++ "[" ++ toString position ++ "]"

/-- The path that a list of keys leads along; the empty list has the empty path. -/
def render (keys : List Key) : String :=
  (keys.foldl (fun path key => some (child path key)) none).getD ""

end DocGraph.Path
