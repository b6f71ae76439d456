import DocGraph.Command.Arguments
import DocGraph.Command.Run
import DocGraph.Json.Write
import DocGraph.Log.Filter
import DocGraph.Yaml.OfJson
import DocGraph.Yaml.Write

/-!
# DocGraph: a run of the program

From the arguments and the settings file to what is printed, what is reported and the exit
status: 0 if something was found, 1 if nothing was or the command failed, 2 if the command line
is malformed.
-/

namespace DocGraph

/-- The text of a tree. Only JSON can be printed on one line. -/
def Json.print (format : Format) (isPretty : Bool) (tree : Json) : String :=
  match format with
  | .json => if isPretty then tree.pretty 0 else tree.compact
  | .yaml => (Yaml.ofJson tree).print

/-- What a run of the program leaves behind. -/
structure Session where
  status : Nat
  /-- What is printed, each text on lines of its own. -/
  printed : List String
  failure : Option String
  log : List Log.Event

namespace Session

def versionText : String := "structprobe 0.1.0"

/-- The settings in a file. One that is unfit counts as missing and is reported. -/
def settings (file : FileEntry) : Config × List Log.Event :=
  match Config.ofEntry file with
  | .ok config => (config, [])
  | .error _ => ({}, [.configIgnored])

/-- The format to print in if the command line names none. -/
def defaultFormat (config : Config) : Format :=
  if config.outputFormat = "yaml" then .yaml else .json

/-- What is reported: what the settings say, or more on demand. -/
def filter (config : Config) (verbosity : Nat) : Log.Filter :=
  .ofText (match verbosity with | 0 => config.logLevel | 1 => "debug" | _ => "trace")

/-- What is left behind if a command ends in a given way. -/
def ofOutcome (format : Format) (isPretty : Bool) (log : List Log.Event) : Outcome → Session
  | .printed tree => ⟨0, [tree.print format isPretty], none, log⟩
  | .notFound => ⟨1, [], none, log⟩
  | .failed cause => ⟨1, [], some cause.message, log⟩

/-- Carries out what a command line asks for. -/
def ofRequest (env : Environment) (configFile : FileEntry) : Request → Session
  | .version => ⟨0, [versionText], none, []⟩
  | .command command format verbosity =>
    let (config, events) := settings configFile
    let run := command.run env config
    ofOutcome (format.getD (defaultFormat config)) config.pretty
      ((events ++ run.events).filter (filter config verbosity).passes) run.outcome

/-- A run of the program. -/
def ofArguments (env : Environment) (configFile : FileEntry) (args : List String) : Session :=
  match Request.ofArguments? args with
  | none => ⟨2, [], none, []⟩
  | some request => ofRequest env configFile request

end Session

end DocGraph
