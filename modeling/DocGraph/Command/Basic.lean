import DocGraph.Document

/-!
# DocGraph: commands

What a command line asks for.
-/

namespace DocGraph

/-- Where a document comes from. -/
inductive Source where
  | standardInput
  | file (name : String)
deriving DecidableEq

/-- A lone hyphen stands for the standard input. -/
def Source.ofName (name : String) : Source :=
  if name = "-" then .standardInput else .file name

inductive Command where
  /-- Shows the tokens of a path expression. -/
  | tokens (expr : String)
  /-- Shows the value at a path, or `fallback` if there is none. -/
  | get (source : Source) (path : String) (fallback : Option String)
  /-- Shows the value of the shallowest field of a name, with its path and depth if asked for. -/
  | findKey (source : Source) (key : String) (withPath : Bool)
  /-- Shows the paths of all occurrences of a value. -/
  | findValue (source : Source) (value : String) (comparator : Option String)
deriving DecidableEq

/-- The document that a command reads, if it reads one. -/
def Command.source? : Command → Option Source
  | .tokens _ => none
  | .get source _ _ => some source
  | .findKey source _ _ => some source
  | .findValue source _ _ => some source

/-- What a command line asks for. -/
inductive Request where
  | version
  /-- A command, with the format to print in if one is given, and how many times more reports are
  asked for. -/
  | command (command : Command) (format : Option Format) (verbosity : Nat)
deriving DecidableEq

end DocGraph
