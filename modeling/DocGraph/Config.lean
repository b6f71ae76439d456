import DocGraph.File.Entry
import DocGraph.Text.Utf8
import DocGraph.Toml.Read
import DocGraph.Toml.Write

/-!
# DocGraph: settings

Four settings, each with a default. A TOML text may give any of them and anything else besides;
a setting of the wrong kind makes the text unfit as a whole.
-/

namespace DocGraph

structure Config where
  /-- The comparator of a value search that names none. -/
  comparator : String := "strict"
  /-- The format of what is printed if the command line names none. -/
  outputFormat : String := "json"
  /-- Whether JSON is printed on several lines. -/
  pretty : Bool := true
  /-- Which events are reported. -/
  logLevel : String := "warn"
deriving DecidableEq

inductive Config.Error where
  | unreadable
  | malformed
deriving DecidableEq

namespace Config

def Error.message : Error → String
  | .unreadable => "Failed to read config file"
  | .malformed => "Failed to parse config file"

/-- A setting of a kind that `read?` knows; `default` if it is not given. -/
def setting? {α : Type} (read? : Toml → Option α) (entries : Toml.Entries) (name : String)
    (default : α) : Option α :=
  match entries.lookup name with
  | none => some default
  | some value => read? value

/-- The settings that a table gives. -/
def ofEntries? (entries : Toml.Entries) : Option Config := do
  let preset : Config := {}
  let comparator ← setting? Toml.text? entries "comparator" preset.comparator
  let outputFormat ← setting? Toml.text? entries "output_format" preset.outputFormat
  let pretty ← setting? Toml.bool? entries "pretty" preset.pretty
  let logLevel ← setting? Toml.text? entries "log_level" preset.logLevel
  some { comparator, outputFormat, pretty, logLevel }

/-- The settings in a TOML text. -/
def ofToml (text : String) : Except Error Config :=
  ((Toml.parse? text).bind ofEntries?).elim (.error .malformed) .ok

/-- The settings in a file. Where there is none, the defaults hold. -/
def ofEntry : FileEntry → Except Error Config
  | .missing => .ok {}
  | .directory => .error .unreadable
  | .file bytes => (Text.ofBytes? bytes).elim (.error .unreadable) ofToml

/-- The settings as a TOML text. -/
def toToml (c : Config) : String :=
  let line (name value : String) := name ++ " = " ++ value ++ "\n"
  line "comparator" (Toml.quote c.comparator) ++ line "output_format" (Toml.quote c.outputFormat)
    ++ line "pretty" (toString c.pretty) ++ line "log_level" (Toml.quote c.logLevel)

end Config

end DocGraph
