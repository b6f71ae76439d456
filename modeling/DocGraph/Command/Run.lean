import DocGraph.Command.Basic
import DocGraph.Config
import DocGraph.Export
import DocGraph.File.Load
import DocGraph.Log.Event
import DocGraph.Path.Resolve
import DocGraph.Search.Key

/-!
# DocGraph: carrying out commands

A command is a function of its arguments, the settings and what it can read. It ends by printing
one tree, by finding nothing, or by failing before it has printed anything.
-/

namespace DocGraph

/-- What a command can read. -/
structure Environment where
  standardInput : List UInt8
  file : String → FileEntry

/-- Why a command fails. -/
inductive Failure where
  | fallback
  | target
  | argument (cause : Search.Error)
  | document (cause : LoadError)
deriving DecidableEq

def Failure.message : Failure → String
  | .fallback => "--default must be a JSON value"
  | .target => "search value must be JSON"
  | .argument cause => cause.message
  | .document cause => cause.message

/-- How a command ends. -/
inductive Outcome where
  | printed (tree : Json)
  | notFound
  | failed (cause : Failure)

/-- How a command ended, and what happened on the way. -/
structure Run where
  events : List Log.Event
  outcome : Outcome

namespace Command

/-- The document of a source, and the event that its text was found. -/
def load (env : Environment) (h : Heap) :
    Source → List Log.Event × Except LoadError (Value × Heap)
  | .standardInput => ([], loadInput h env.standardInput)
  | .file name =>
    match (env.file name).read name with
    | .error e => ([], .error e)
    | .ok text => ([.loaded name (FileName.format name) text.utf8ByteSize], loadText h name text)

/-- Goes on with the document of a source. -/
def withDocument (env : Environment) (h : Heap) (source : Source) (answer : Heap → Value → Run) :
    Run :=
  match load env h source with
  | (events, .error e) => ⟨events, .failed (.document e)⟩
  | (events, .ok (root, h)) => ⟨events ++ (answer h root).events, (answer h root).outcome⟩

/-- What was skipped in a path expression. -/
def skips (expr : String) : List Log.Event :=
  (Path.read expr).recoveries.map (.skipped expr)

def tokensTree (expr : String) : Json :=
  .array ((Path.parse expr).map .text)

/-- The value of a fallback, `absent` if there is none. -/
def fallbackValue (fallback : Option String) : Except ParseError (Value × Heap) :=
  match fallback with
  | none => .ok (.absent, .empty)
  | some text => parseJson .empty text

def answerGet (path : String) (fallback : Value) (h : Heap) (root : Value) : Run :=
  let v := Path.resolve h root (.expression path) fallback
  ⟨skips path, if v.isAbsent then .notFound else .printed (v.toJson h)⟩

/-- The events of a finished search for a name. -/
def keyEvents (key : String) : Option Search.KeyOutcome → List Log.Event
  | none => []
  | some ⟨some found, entered⟩ => [.keyFound key found.depth entered]
  | some ⟨none, entered⟩ => [.keyMissing key entered]

/-- A field found, alone or with its path and depth. -/
def keyTree (withPath : Bool) (h : Heap) (found : Search.KeyMatch) : Json :=
  if withPath then
    .object [("path", .text found.path), ("depth", .number (.integer found.depth)),
      ("value", found.value.toJson h)]
  else found.value.toJson h

def answerKey (key : String) (withPath : Bool) (h : Heap) (root : Value) : Run :=
  match Search.findKey h root key with
  | .error e => ⟨[], .failed (.argument e)⟩
  | .ok outcome =>
    ⟨keyEvents key outcome,
      match outcome.bind Search.KeyOutcome.found with
      | some found => .printed (keyTree withPath h found)
      | none => .notFound⟩

def answerValue (comparator : Search.Comparator) (target : Value) (h : Heap) (root : Value) : Run :=
  match Search.findValue? h root target comparator with
  | none => ⟨[], .notFound⟩
  | some sweep =>
    ⟨sweep.report.faults.map .fault ++ [.swept comparator.name sweep],
      if sweep.report.paths.isEmpty then .notFound
      else .printed (.array (sweep.report.paths.map .text))⟩

/-- Carries out a command. Arguments are looked at before the document. -/
def run (env : Environment) (config : Config) : Command → Run
  | .tokens expr => ⟨skips expr, .printed (tokensTree expr)⟩
  | .get source path fallback =>
    -- the fallback goes on the heap first, the document behind it
    match fallbackValue fallback with
    | .error _ => ⟨[], .failed .fallback⟩
    | .ok (v, h) => withDocument env h source (answerGet path v)
  | .findKey source key withPath => withDocument env .empty source (answerKey key withPath)
  | .findValue source value comparator =>
    -- the name of the comparator, the value, and only then the document
    match Search.Comparator.ofName (comparator.getD config.comparator) with
    | .error e => ⟨[], .failed (.argument e)⟩
    | .ok comparator =>
      match parseJson .empty value with
      | .error _ => ⟨[], .failed .target⟩
      | .ok (target, h) => withDocument env h source (answerValue comparator target)

end Command

end DocGraph
