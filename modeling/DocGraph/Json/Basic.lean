import DocGraph.Numeral

/-!
# DocGraph: JSON trees

A decoded JSON text. Members keep their order; a text that names one twice yields it once.
-/

namespace DocGraph

inductive Json where
  | null
  | bool (b : Bool)
  | number (n : Numeral)
  | text (s : String)
  | array (items : List Json)
  | object (members : List (String × Json))

end DocGraph
