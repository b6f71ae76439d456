/-!
# DocGraph: text without control sequences

What remains of a text once the sequences that control a terminal are left out: the ones that an
escape character opens, and the control characters but for tabs and the ends of lines and pages.
-/

namespace DocGraph.Text

/-- Where in a control sequence a text is. -/
inductive ControlMode where
  /-- In no sequence. -/
  | ground
  /-- Behind an escape character. -/
  | escape
  /-- Behind an escape character and more, with the final character to come. -/
  | intermediate
  /-- Among the parameters of a sequence. -/
  | parameters
  /-- In a command to the system, which a bell may end. -/
  | command
  /-- In a string, which only a new sequence or a cancellation ends. -/
  | string

/-- The control characters that are kept. -/
def isLayout (c : Char) : Bool :=
  c == '\t' || c == '\n' || c == '\x0c' || c == '\r'

def isControl (c : Char) : Bool :=
  c < ' ' || c == '\x7f'

/-- Where a text is behind one more character. -/
def ControlMode.next (mode : ControlMode) (c : Char) : ControlMode :=
  match mode with
  | ground => ground
  | escape =>
    if c == '[' then parameters
    else if c == ']' then command
    else if c == 'P' || c == 'X' || c == '^' || c == '_' then string
    else if ' ' ≤ c && c < '0' then intermediate
    else if '0' ≤ c && c ≤ '~' then ground
    else escape
  | intermediate => if '0' ≤ c && c ≤ '~' then ground else intermediate
  | parameters => if '@' ≤ c && c ≤ '~' then ground else parameters
  | command => if c == '\x07' then ground else command
  | string => string

/-- The rest of a text from some place on. A kept control character ends a sequence, unless it is
part of a command or a string. -/
def visibleFrom (mode : ControlMode) : List Char → List Char
  | [] => []
  | c :: s =>
    -- cancellation, and a new sequence, whatever went before
    if c == '\x18' || c == '\x1a' then visibleFrom .ground s
    else if c == '\x1b' then visibleFrom .escape s
    else
      match mode with
      | .ground =>
        -- a control character alone is left out
        if isControl c && !isLayout c then visibleFrom .ground s else c :: visibleFrom .ground s
      | .command => visibleFrom (ControlMode.next .command c) s
      | .string => visibleFrom .string s
      | mode => if isLayout c then c :: visibleFrom .ground s else visibleFrom (mode.next c) s

/-- A text without control sequences. -/
def visible (s : String) : String :=
  String.ofList (visibleFrom .ground s.toList)

end DocGraph.Text
