import DocGraph.Import
import DocGraph.Json.Read
import DocGraph.Yaml.Read

/-!
# DocGraph: documents as text

A document is a JSON or a YAML text. Decoding it places its containers on a heap.
-/

namespace DocGraph

/-- The format of a document's text. -/
inductive Format where
  | json
  | yaml
deriving DecidableEq

/-- A text that is no document of the format asked for. -/
inductive ParseError where
  | json
  | yaml
deriving DecidableEq

def ParseError.message : ParseError → String
  | .json => "Failed to parse JSON"
  | .yaml => "Failed to parse YAML"

def parseJson (h : Heap) (text : String) : Except ParseError (Value × Heap) :=
  match Json.parse? text with
  | some tree => .ok (tree.load h)
  | none => .error .json

def parseYaml (h : Heap) (text : String) : Except ParseError (Value × Heap) :=
  match Yaml.parse? text with
  | some tree => .ok (tree.load h)
  | none => .error .yaml

def parseDocument (h : Heap) (format : Format) (text : String) :
    Except ParseError (Value × Heap) :=
  match format with
  | .json => parseJson h text
  | .yaml => parseYaml h text

end DocGraph
