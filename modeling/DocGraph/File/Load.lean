import DocGraph.File.Entry
import DocGraph.File.Name
import DocGraph.Gzip.Member
import DocGraph.Text.Utf8

/-!
# DocGraph: loading documents

A document comes from a file, whose name tells how to decompress and read it, or from the
standard input, where the content itself must tell: compressed data by its first two bytes, and
JSON by being JSON.
-/

namespace DocGraph

inductive LoadError where
  | unreadable (name : String)
  | unopened
  | corruptFile
  | corruptInput
  | invalidInput
  | malformed (cause : ParseError)
  | neitherFormat
deriving DecidableEq

def LoadError.message : LoadError → String
  | .unreadable name => "Failed to read file " ++ name
  | .unopened => "Failed to open gzipped file"
  | .corruptFile => "Failed to decompress gzipped file - file may be corrupted"
  | .corruptInput => "Failed to decompress gzipped input"
  | .invalidInput => "Invalid UTF-8 in input"
  | .malformed cause => cause.message
  | .neitherFormat => "Failed to parse stdin: input is neither valid JSON nor valid YAML"

/-- The text that compressed data holds. -/
def Gzip.text? (bytes : List UInt8) : Option String :=
  (decompress? bytes).bind Text.ofBytes?

/-- The text in a file. -/
def FileEntry.read (name : String) (entry : FileEntry) : Except LoadError String :=
  if FileName.isGzipped name then
    match entry with
    | .missing => .error .unopened
    | .directory => .error .corruptFile
    | .file bytes => (Gzip.text? bytes).elim (.error .corruptFile) .ok
  else
    match entry with
    | .file bytes => (Text.ofBytes? bytes).elim (.error (.unreadable name)) .ok
    | _ => .error (.unreadable name)

/-- Decodes the text of a file in the format that its name tells. -/
def loadText (h : Heap) (name text : String) : Except LoadError (Value × Heap) :=
  (parseDocument h (FileName.format name) text).mapError .malformed

/-- The document in a file. -/
def loadFile (h : Heap) (name : String) (entry : FileEntry) : Except LoadError (Value × Heap) :=
  (entry.read name).bind (loadText h name)

/-- The text of what is given on the standard input. -/
def decodeInput (bytes : List UInt8) : Except LoadError String :=
  if Gzip.magic.isPrefixOf bytes then (Gzip.text? bytes).elim (.error .corruptInput) .ok
  else (Text.ofBytes? bytes).elim (.error .invalidInput) .ok

/-- Decodes a text as JSON if it is JSON, and as YAML otherwise. -/
def loadEither (h : Heap) (text : String) : Except LoadError (Value × Heap) :=
  match parseJson h text with
  | .ok result => .ok result
  | .error _ => (parseYaml h text).mapError fun _ => .neitherFormat

/-- The document on the standard input. -/
def loadInput (h : Heap) (bytes : List UInt8) : Except LoadError (Value × Heap) :=
  (decodeInput bytes).bind (loadEither h)

end DocGraph
