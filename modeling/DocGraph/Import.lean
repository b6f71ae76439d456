import DocGraph.Heap
import DocGraph.Json.Basic
import DocGraph.Yaml.Key

/-!
# DocGraph: from trees to graphs

A decoded document becomes a graph by placing one fresh container on the heap for each container
of the tree, children before their owner. Keys of YAML mappings become the text that names them,
and tags are dropped.
-/

namespace DocGraph

mutual

def Json.load (h : Heap) : Json → Value × Heap
  | .null => (.null, h)
  | .bool b => (.bool b, h)
  | .number n => (.number (.ofNumeral n), h)
  | .text s => (.text s, h)
  | .array items =>
    let (values, h) := Json.loadItems h items
    let (c, h) := h.newArray values
    (.container c, h)
  | .object members =>
    let (fields, h) := Json.loadMembers h members
    let (c, h) := h.newObject (.ofList fields)
    (.container c, h)

def Json.loadItems (h : Heap) : List Json → List Value × Heap
  | [] => ([], h)
  | v :: rest =>
    let (v, h) := Json.load h v
    let (values, h) := Json.loadItems h rest
    (v :: values, h)

def Json.loadMembers (h : Heap) : List (String × Json) → List (String × Value) × Heap
  | [] => ([], h)
  | (name, v) :: rest =>
    let (v, h) := Json.load h v
    let (fields, h) := Json.loadMembers h rest
    ((name, v) :: fields, h)

end

mutual

def Yaml.load (h : Heap) : Yaml → Value × Heap
  | .null => (.null, h)
  | .bool b => (.bool b, h)
  | .number n => (.number (.ofNumeral n), h)
  | .text s => (.text s, h)
  | .sequence items =>
    let (values, h) := Yaml.loadItems h items
    let (c, h) := h.newArray values
    (.container c, h)
  | .mapping entries =>
    let (fields, h) := Yaml.loadEntries h entries
    let (c, h) := h.newObject (.ofList fields)
    (.container c, h)
  | .tagged _ inner => Yaml.load h inner

def Yaml.loadItems (h : Heap) : List Yaml → List Value × Heap
  | [] => ([], h)
  | v :: rest =>
    let (v, h) := Yaml.load h v
    let (values, h) := Yaml.loadItems h rest
    (v :: values, h)

def Yaml.loadEntries (h : Heap) : List (Yaml × Yaml) → List (String × Value) × Heap
  | [] => ([], h)
  | (key, v) :: rest =>
    let (v, h) := Yaml.load h v
    let (fields, h) := Yaml.loadEntries h rest
    ((key.keyText, v) :: fields, h)

end

end DocGraph
