import DocGraph.Document
import DocGraph.Path.Scan
import DocGraph.Search.Occurrence
import DocGraph.Text.Visible

/-!
# DocGraph: events worth reporting

What a run may report besides its answer. An event has a level, a target that tells which part
of the program it comes from, and a message.
-/

namespace DocGraph.Log

/-- How important an event is, the most important first. -/
inductive Level where
  | error
  | warn
  | info
  | debug
  | trace
deriving DecidableEq

namespace Level

/-- The place of a level among all; events up to some place are let through. -/
def rank : Level → Nat
  | error => 1
  | warn => 2
  | info => 3
  | debug => 4
  | trace => 5

def name : Level → String
  | error => "ERROR"
  | warn => "WARN"
  | info => "INFO"
  | debug => "DEBUG"
  | trace => "TRACE"

end Level

inductive Event where
  | configIgnored
  | skipped (expr : String) (recovery : Path.Recovery)
  | loaded (name : String) (format : Format) (bytes : Nat)
  | keyFound (key : String) (depth entered : Nat)
  | keyMissing (key : String) (entered : Nat)
  | fault (fault : Search.Fault)
  | swept (comparator : String) (sweep : Search.Sweep)

/-- The name of a format in messages. -/
def formatName : Format → String
  | .json => "Json"
  | .yaml => "Yaml"

namespace Event

def level : Event → Level
  | configIgnored => .warn
  | skipped _ _ => .warn
  | loaded _ _ _ => .debug
  | keyFound _ _ _ => .debug
  | keyMissing _ _ => .trace
  | fault _ => .warn
  | swept _ _ => .debug

/-- The part of the program that an event comes from, by the names that filters know. -/
def target : Event → String
  | configIgnored => "structprobe"
  | skipped _ _ => "structprobe::path::parser"
  | loaded _ _ _ => "structprobe::file::loader"
  | keyFound _ _ _ => "structprobe::search::by_key"
  | keyMissing _ _ => "structprobe::search::by_key"
  | fault _ => "structprobe::search::by_value"
  | swept _ _ => "structprobe::search::by_value"

def message : Event → String
  | configIgnored => "ignoring config file"
  | skipped expr recovery => "path `" ++ expr ++ "`: " ++ recovery.text
  | loaded name format bytes =>
    "loaded " ++ name ++ " (" ++ formatName format ++ ", " ++ toString bytes ++ " bytes)"
  | keyFound key depth entered =>
    "key `" ++ key ++ "` found at depth " ++ toString depth ++ " after visiting "
      ++ toString entered ++ " containers"
  | keyMissing key entered =>
    "key `" ++ key ++ "` not found in " ++ toString entered ++ " containers"
  | fault f => f.text
  | swept comparator sweep =>
    comparator ++ " comparator: " ++ toString sweep.report.paths.length ++ " matches, "
      ++ toString sweep.report.faults.length ++ " faults, " ++ toString sweep.entered
      ++ " containers visited"

/-- The message as it is written, up to its first line break. -/
def line (e : Event) : String :=
  String.ofList ((Text.visible e.message).toList.takeWhile (· != '\n'))

end Event

end DocGraph.Log
