import DocGraph.Numeral

/-!
# DocGraph: YAML trees

A decoded YAML document. Any tree may be a key of a mapping, and any node may carry a tag of the
document's own.

Two keys are the same if they are equal as trees: numbers within their kind, NaN with itself,
mappings in any order, tags with or without a leading exclamation mark.
-/

namespace DocGraph

inductive Yaml where
  | null
  | bool (b : Bool)
  | number (n : Numeral)
  | text (s : String)
  | sequence (items : List Yaml)
  | mapping (entries : List (Yaml × Yaml))
  | tagged (tag : String) (inner : Yaml)

namespace Yaml

/-- A tag without its leading exclamation mark, if something is left. -/
def bareTag (tag : String) : String :=
  match tag.toList with
  | '!' :: c :: rest => String.ofList (c :: rest)
  | _ => tag

def sameNumeral : Numeral → Numeral → Bool
  | .integer a, .integer b => a == b
  | .float a, .float b => a == b || (a.isNaN && b.isNaN)
  | _, _ => false

mutual

def same : Yaml → Yaml → Bool
  | .null, .null => true
  | .bool a, .bool b => a == b
  | .number a, .number b => sameNumeral a b
  | .text a, .text b => a == b
  | .sequence a, .sequence b => sameItems a b
  | .mapping a, .mapping b => a.length == b.length && sameEntries a b
  | .tagged s a, .tagged t b => bareTag s == bareTag t && same a b
  | _, _ => false

def sameItems : List Yaml → List Yaml → Bool
  | [], [] => true
  | a :: as, b :: bs => same a b && sameItems as bs
  | _, _ => false

/-- Every entry of the first list occurs in the second. -/
def sameEntries : List (Yaml × Yaml) → List (Yaml × Yaml) → Bool
  | [], _ => true
  | (k, v) :: rest, bs => bs.any (fun b => same k b.1 && same v b.2) && sameEntries rest bs

end

/-- No two of the keys are the same. -/
def distinct : List Yaml → Bool
  | [] => true
  | k :: rest => !rest.any (same k) && distinct rest

end Yaml

end DocGraph
