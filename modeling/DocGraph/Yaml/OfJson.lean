import DocGraph.Json.Basic
import DocGraph.Yaml.Basic

/-!
# DocGraph: JSON trees as YAML trees

Every JSON tree is a YAML tree, the names of its members being text keys.
-/

namespace DocGraph.Yaml

mutual

def ofJson : Json → Yaml
  | .null => .null
  | .bool b => .bool b
  | .number n => .number n
  | .text s => .text s
  | .array items => .sequence (ofItems items)
  | .object members => .mapping (ofMembers members)

def ofItems : List Json → List Yaml
  | [] => []
  | v :: rest => ofJson v :: ofItems rest

def ofMembers : List (String × Json) → List (Yaml × Yaml)
  | [] => []
  | (name, v) :: rest => (.text name, ofJson v) :: ofMembers rest

end

end DocGraph.Yaml
