import DocGraph.Command.Basic

/-!
# DocGraph: reading the command line

A command line is read on two levels: options of the program up to the name of a command, then
that command's own options and operands. The options of the program that concern every command
may be given on both levels, and the inner one counts.

An option is written long, behind two hyphens, or as a letter behind one. Letters may be joined.
The value of an option is the next argument, or follows a long option behind a sign of equality,
and a letter at once or behind such a sign. Nothing else may begin with a hyphen but a lone one,
unless two hyphens alone went before.

The help of the program is left out. Its texts are not part of the development, and a command line
that asks for them, by `--help`, `-h` or the command `help`, is not read: it counts as malformed
here, although the program shows its help there and ends well.
-/

namespace DocGraph

/-- The options of the program and of its commands. -/
inductive Switch where
  | format
  | verbose
  | version
  | fallback
  | withPath
  | compare
deriving DecidableEq

namespace Switch

def long : Switch → String
  | format => "format"
  | verbose => "verbose"
  | version => "version"
  | fallback => "default"
  | withPath => "with-path"
  | compare => "compare"

def letter? : Switch → Option Char
  | format => some 'f'
  | verbose => some 'v'
  | version => some 'V'
  | fallback => some 'd'
  | withPath => none
  | compare => some 'c'

def takesValue : Switch → Bool
  | format => true
  | verbose => false
  | version => false
  | fallback => true
  | withPath => false
  | compare => true

end Switch

/-- An option as it was given. The value of one that takes none is empty. -/
abbrev Given := Switch × String

/-- The options given on one level, and the arguments behind them. -/
structure Arguments where
  given : List Given
  operands : List String

namespace Arguments

def addGiven (a : Arguments) (given : List Given) : Arguments :=
  { a with given := given ++ a.given }

/-- A long option apart from the value attached to it. -/
def splitLong (s : List Char) : String × Option String :=
  let value := match s.dropWhile (· != '=') with
    | [] => none
    | _ :: value => some (String.ofList value)
  (String.ofList (s.takeWhile (· != '=')), value)

/-- Options joined behind one hyphen, and the last one if it still needs a value. -/
def letters? (allowed : List Switch) : List Char → Option (List Given × Option Switch)
  | [] => some ([], none)
  | c :: rest =>
    (allowed.find? (·.letter? = some c)).bind fun s =>
      if s = .version then some ([(s, "")], none)
      else if s.takesValue then
        match rest with
        | [] => some ([], some s)
        | '=' :: value => some ([(s, String.ofList value)], none)
        | value => some ([(s, String.ofList value)], none)
      -- one without a value: the next letter is an option too
      else (letters? allowed rest).map fun (given, open?) => ((s, "") :: given, open?)

/-- A long option, which may still need a value. -/
def long? (allowed : List Switch) (s : List Char) : Option (List Given × Option Switch) :=
  let (name, value) := splitLong s
  (allowed.find? (·.long = name)).bind fun s =>
    match s.takesValue, value with
    | true, some value => some ([(s, value)], none)
    | true, none => some ([], some s)
    | false, some _ => none
    | false, none => some ([(s, "")], none)

/-- What an argument can be. -/
inductive Shape where
  | separator
  | options (parsed : Option (List Given × Option Switch))
  | operand

def shape (allowed : List Switch) (arg : String) : Shape :=
  match arg.toList with
  | ['-', '-'] => .separator
  | '-' :: '-' :: s => .options (long? allowed s)
  | ['-'] => .operand
  | '-' :: s => .options (letters? allowed s)
  | _ => .operand

/-- Whether an argument can be the value of the option in front of it. -/
def isValue (arg : String) : Bool :=
  arg = "-" || !arg.startsWith "-"

/-- The options and operands of one level. Where `nested`, options end at the first operand, and
two hyphens alone are refused. Asking for the version ends the reading at once. -/
def read? (allowed : List Switch) (nested : Bool) : List String → Option Arguments
  | [] => some ⟨[], []⟩
  | arg :: rest =>
    match shape allowed arg with
    | .separator => if nested then none else some ⟨[], rest⟩
    | .operand =>
      if nested then some ⟨[], arg :: rest⟩
      else (read? allowed nested rest).map fun a => { a with operands := arg :: a.operands }
    | .options none => none
    | .options (some (given, none)) =>
      -- what stands behind is not looked at
      if given.any (·.1 = .version) then some ⟨given, []⟩
      else (read? allowed nested rest).map (addGiven · given)
    | .options (some (given, some s)) =>
      match rest with
      | [] => none
      | value :: rest =>
        if isValue value then
          (read? allowed nested rest).map (addGiven · (given ++ [(s, value)]))
        else none

/-- The value of an option. -/
def value? (a : Arguments) (s : Switch) : Option String :=
  a.given.lookup s

/-- How often an option is given. -/
def count (a : Arguments) (s : Switch) : Nat :=
  (a.given.filter (·.1 = s)).length

/-- The names of the formats. -/
def formats : List (String × Format) := [("json", .json), ("yaml", .yaml)]

/-- Every value is one that its option admits, and only `verbose` is given more than once. -/
def areValid (a : Arguments) : Bool :=
  a.given.all fun (s, value) =>
    (s = .verbose || a.count s = 1) && (s ≠ .format || (formats.lookup value).isSome)

/-- The format to print in. -/
def format? (a : Arguments) : Option Format :=
  (a.value? .format).bind (formats.lookup ·)

end Arguments

/-- The options that may be given on both levels. -/
def sharedSwitches : List Switch := [.format, .verbose]

/-- The options of a command; `none` if there is no such command. -/
def commandSwitches? (name : String) : Option (List Switch) :=
  match name with
  | "tokens" => some []
  | "get" => some [.fallback]
  | "find-key" => some [.withPath]
  | "find-value" => some [.compare]
  | _ => none

/-- The command of a name with its options and operands. -/
def command? (name : String) (a : Arguments) : Option Command :=
  match name, a.operands with
  | "tokens", [expr] => some (.tokens expr)
  | "get", [file, path] => some (.get (.ofName file) path (a.value? .fallback))
  | "find-key", [file, key] => some (.findKey (.ofName file) key (a.count .withPath = 1))
  | "find-value", [file, value] => some (.findValue (.ofName file) value (a.value? .compare))
  | _, _ => none

/-- What a command line asks for; `none` if it is malformed. -/
def Request.ofArguments? (args : List String) : Option Request := do
  let outer ← Arguments.read? (.version :: sharedSwitches) true args
  if !outer.areValid then none
  else if outer.count .version = 1 then some .version
  else
    match outer.operands with
    | [] => none
    | name :: rest =>
      let inner ← Arguments.read? (sharedSwitches ++ (← commandSwitches? name)) false rest
      if !inner.areValid then none
      else
        let command ← command? name inner
        let verbosity := if inner.count .verbose = 0 then outer.count .verbose
          else inner.count .verbose
        some (.command command (inner.format? <|> outer.format?) verbosity)

end DocGraph
