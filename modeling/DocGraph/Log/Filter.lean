import DocGraph.Log.Event
import DocGraph.Text.Blank

/-!
# DocGraph: which events are reported

A filter is a list of rules behind which, after a slash, a text may stand that messages must
hold. A rule sets the level up to which events are let through, for all targets or for those
whose names begin with a given text. Of the rules that fit a target the one with the longest text
counts, and of two such the later one.
-/

namespace DocGraph.Log

structure Rule where
  /-- How the targets begin that the rule is for; `none` for all targets. -/
  target : Option String
  /-- The rank up to which events are let through; 0 stops all. -/
  limit : Nat
deriving DecidableEq

structure Filter where
  rules : List Rule
  /-- What a message must hold. -/
  content : Option String

namespace Filter

/-- The limits by their names. -/
def limits : List (String × Nat) :=
  [("off", 0), ("error", 1), ("warn", 2), ("info", 3), ("debug", 4), ("trace", 5)]

/-- A limit by its name in letters of either case. -/
def limit? (name : String) : Option Nat :=
  limits.lookup (name.map Char.toLower)

/-- The rule that a part of a filter's text states. A target alone lets all its events through. -/
def rule? (text : String) : Option Rule :=
  match (text.toList.splitOn '=').map String.ofList with
  | [name] => some ((limit? name).elim ⟨some name, 5⟩ (⟨none, ·⟩))
  | [name, limit] =>
    -- a sign of equality with nothing behind it says no more than the name alone
    if Text.isBlankText limit then some ⟨some name, 5⟩
    else (limit? (Text.trim limit)).map (⟨some name, ·⟩)
  | _ => none

/-- Adds a rule; it replaces one for the same target. -/
def add (rules : List Rule) (rule : Rule) : List Rule :=
  if rules.any (·.target = rule.target) then
    rules.map fun old => if old.target = rule.target then rule else old
  else rules ++ [rule]

/-- The rules that a text states, separated by commas; what states none is passed over. -/
def rulesOf (text : List Char) : List Rule :=
  ((text.splitOn ',').filterMap fun part =>
    let part := Text.trim (String.ofList part)
    if part.isEmpty then none else rule? part).foldl add []

/-- The filter that a text describes. With more than one slash it describes none. A filter
without rules lets errors through. -/
def ofText (text : String) : Filter :=
  let (rules, content) := match text.toList.splitOn '/' with
    | [rules] => (rulesOf rules, none)
    | [rules, content] => (rulesOf rules, some (String.ofList content))
    | _ => ([], none)
  ⟨if rules.isEmpty then [⟨none, 1⟩] else rules, content⟩

/-- How well a rule fits a target, more is better; `none` if it does not. -/
def fit? (rule : Rule) (target : String) : Option Nat :=
  match rule.target with
  | none => some 0
  | some start => if start.toList.isPrefixOf target.toList then some start.utf8ByteSize else none

/-- The limit for a target: that of the rule that fits best. -/
def limitFor (rules : List Rule) (target : String) : Nat :=
  (rules.foldl
    (fun best rule =>
      match fit? rule target with
      -- of two that fit equally well the later one
      | some n => if best.1 ≤ n then (n, rule.limit) else best
      | none => best)
    (0, 0)).2

/-- Whether one text occurs in another. -/
def occursIn (content : List Char) : List Char → Bool
  | [] => content.isEmpty
  | c :: s => content.isPrefixOf (c :: s) || occursIn content s

/-- Whether an event is reported. -/
def passes (f : Filter) (e : Event) : Bool :=
  e.level.rank ≤ limitFor f.rules e.target
    && f.content.all fun content => occursIn content.toList e.message.toList

end Filter

end DocGraph.Log
