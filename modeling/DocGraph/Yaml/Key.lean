import DocGraph.Yaml.Write

/-!
# DocGraph: keys of YAML mappings as texts

A graph names fields by texts, so a key that is no text is named by how it is written: a scalar
by its canonical text, a container or tagged node by its YAML text.
-/

namespace DocGraph.Yaml

def numeral : Numeral → String
  | .integer n => toString n
  | .float x => floatLayout.float x

def keyText : Yaml → String
  | .text s => s
  | .number n => numeral n
  | .bool b => toString b
  | .null => "null"
  | y => print y

end DocGraph.Yaml
