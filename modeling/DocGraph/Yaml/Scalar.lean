import DocGraph.Text.Digit
import DocGraph.Yaml.Cursor

/-!
# DocGraph: the scalars of YAML

Five ways to write a text: plain, in single or double quotes, and as a block that keeps or folds
its line breaks. Between two words of a plain or quoted scalar, blanks stand for themselves, one
line break stands for a space, and of several breaks all but the first stand for themselves.
-/

namespace DocGraph.Yaml

/-- Blanks and line breaks between two words. -/
structure Gap where
  /-- The blanks in front of the first break. -/
  blanks : List Char
  first : Option Char
  more : List Char
  /-- The words are on different lines. -/
  broken : Bool

namespace Gap

def none : Gap := ⟨[], .none, [], false⟩

/-- What a gap stands for. -/
def text (g : Gap) : List Char :=
  if g.broken then
    match g.first with
    | some '\n' => if g.more.isEmpty then [' '] else g.more
    | some c => c :: g.more
    | .none => g.more
  else g.blanks

def addBreak (g : Gap) (c : Char) : Gap :=
  if g.broken then { g with more := g.more ++ [c] } else { g with first := some c, broken := true }

/-- Reads on to the next character that is neither blank nor break. A tab left of the column
`margin` on a new line is refused; `fuel` bounds the characters read. -/
def read (margin : Nat) : (fuel : Nat) → Gap → Cursor → Option (Gap × Cursor)
  | 0, g, c => some (g, c)
  | fuel + 1, g, c =>
    match c.lineBreak? with
    | some (b, c) => read margin fuel (g.addBreak b) c
    | .none =>
      match c.rest with
      | ch :: _ =>
        if !isBlank ch then some (g, c)
        else if g.broken then
          if ch = '\t' && c.column < margin then .none else read margin fuel g (c.skip 1)
        else read margin fuel { g with blanks := g.blanks ++ [ch] } (c.skip 1)
      | [] => some (g, c)

end Gap

/-! ## Plain scalars -/

def isFlowIndicator (c : Char) : Bool :=
  c == ',' || c == '[' || c == ']' || c == '\x7b' || c == '\x7d'

/-- A run of characters of a plain scalar, up to a blank, a break or an indicator. Between
brackets a colon in front of an indicator is refused. -/
def plainRun (flow : Bool) : List Char → Option (List Char × List Char)
  | [] => some ([], [])
  | c :: s =>
    if isBlank c || isBreak c then some ([], c :: s)
    else if flow && c = ':' && s.head?.any (fun d => isFlowIndicator d || d == '?') then none
    else if (c = ':' && endsWord s) || (flow && isFlowIndicator c) then some ([], c :: s)
    else (plainRun flow s).map fun (cs, rest) => (c :: cs, rest)

/-- A plain scalar with the text read so far and the gap behind it. The result says whether the
scalar is followed by a line break. -/
def plainScalar (flow : Bool) (margin : Nat) :
    (fuel : Nat) → List Char → Gap → Cursor → Option (List Char × Bool × Cursor)
  | 0, found, g, c => some (found, g.broken, c)
  | fuel + 1, found, g, c =>
    if c.atDocumentMark || c.rest.head? = some '#' then some (found, g.broken, c)
    else
      (plainRun flow c.rest).bind fun (run, rest) =>
        -- the gap counts once a word follows it
        let (found, g) := if run.isEmpty then (found, g) else (found ++ g.text ++ run, Gap.none)
        let c := c.moveTo rest
        match c.rest with
        | [] => some (found, g.broken, c)
        | ch :: _ =>
          if !(isBlank ch || isBreak ch) then some (found, g.broken, c)
          else
            (g.read margin c.rest.length c).bind fun (g, c) =>
              if !flow && c.column < margin then some (found, g.broken, c)
              else plainScalar flow margin fuel found g c

/-! ## Quoted scalars -/

/-- What stops a run of characters of a quoted scalar. -/
inductive QuoteStop where
  /-- The closing quote, which is passed. -/
  | quote
  /-- A blank, a break or the end of the text. -/
  | gap
  /-- A backslash in front of a line break, which joins two lines. -/
  | joined
deriving DecidableEq

/-- What a backslash and one character stand for. -/
def simpleEscape? : Char → Option Char
  | '0' => some '\x00'
  | 'a' => some '\x07'
  | 'b' => some '\x08'
  | 't' => some '\t'
  | '\t' => some '\t'
  | 'n' => some '\n'
  | 'v' => some '\x0b'
  | 'f' => some '\x0c'
  | 'r' => some '\r'
  | 'e' => some '\x1b'
  | ' ' => some ' '
  | '"' => some '"'
  | '/' => some '/'
  | '\\' => some '\\'
  | 'N' => some '\u0085'
  | '_' => some '\u00a0'
  | 'L' => some '\u2028'
  | 'P' => some '\u2029'
  | _ => none

/-- The number of hexadecimal digits behind a backslash and this character. -/
def codeLength? : Char → Option Nat
  | 'x' => some 2
  | 'u' => some 4
  | 'U' => some 8
  | _ => none

/-- The character behind a backslash, and how many characters the escape takes after it. -/
def escape? : List Char → Option (Char × Nat)
  | [] => none
  | c :: s =>
    match simpleEscape? c, codeLength? c with
    | some d, _ => some (d, 1)
    | none, some n =>
      if (s.take n).length = n then
        (Text.digits? 16 (s.take n)).bind fun code =>
          if code.isValidChar then some (Char.ofNat code, n + 1) else none
      else none
    | none, none => none

/-- A run of characters in single quotes: what it stands for, what stops it, and the text behind
that. Two quotes stand for one. -/
def singleRun : List Char → List Char × QuoteStop × List Char
  | [] => ([], .gap, [])
  | '\'' :: '\'' :: s => let (cs, stop, rest) := singleRun s; ('\'' :: cs, stop, rest)
  | c :: s =>
    if c = '\'' then ([], .quote, s)
    else if isBlank c || isBreak c then ([], .gap, c :: s)
    else let (cs, stop, rest) := singleRun s; (c :: cs, stop, rest)

/-- A run of characters in double quotes, with escapes. -/
def doubleRun : (fuel : Nat) → List Char → Option (List Char × QuoteStop × List Char)
  | 0, s => some ([], .gap, s)
  | _ + 1, [] => some ([], .gap, [])
  | fuel + 1, c :: s =>
    if c = '"' then some ([], .quote, s)
    else if isBlank c || isBreak c then some ([], .gap, c :: s)
    else if c = '\\' then
      if (lineBreak? s).isSome then some ([], .joined, s)
      else
        (escape? s).bind fun (d, n) =>
          (doubleRun fuel (s.drop n)).map fun (cs, stop, rest) => (d :: cs, stop, rest)
    else (doubleRun fuel s).map fun (cs, stop, rest) => (c :: cs, stop, rest)

/-- A quoted scalar from behind its opening quote to behind its closing one. -/
def quotedScalar (single : Bool) :
    (fuel : Nat) → List Char → Cursor → Option (List Char × Cursor)
  | 0, _, _ => none
  | fuel + 1, found, c =>
    if c.atDocumentMark || c.rest.isEmpty then none
    else
      (if single then some (singleRun c.rest) else doubleRun c.rest.length c.rest).bind
        fun (run, stop, rest) =>
          let c := c.moveTo rest
          let found := found ++ run
          match stop with
          | .quote => some (found, c)
          | .gap =>
            (Gap.none.read 0 c.rest.length c).bind fun (g, c) =>
              quotedScalar single fuel (found ++ g.text) c
          | .joined =>
            let c := c.skipBreak
            (Gap.read 0 c.rest.length { Gap.none with broken := true } c).bind fun (g, c) =>
              quotedScalar single fuel (found ++ g.text) c

/-! ## Block scalars -/

/-- What happens to the line breaks at the end of a block scalar. -/
inductive Chomping where
  | strip
  | clip
  | keep
deriving DecidableEq

def chomping? : List Char → Option Chomping
  | '+' :: _ => some .keep
  | '-' :: _ => some .strip
  | _ => none

/-- The digit that sets the indentation; zero is refused. -/
def indentation? : List Char → Option (Option Nat)
  | c :: _ =>
    if c = '0' then none
    else if c.isDigit then some (some (c.toNat - '0'.toNat))
    else some none
  | [] => some none

/-- The indicators behind the bar or the angle bracket, in either order. -/
def blockHeader? (c : Cursor) : Option (Chomping × Option Nat × Cursor) :=
  match chomping? c.rest with
  | some chomping =>
    let c := c.skip 1
    (indentation? c.rest).map fun digit =>
      (chomping, digit, if digit.isSome then c.skip 1 else c)
  | none =>
    (indentation? c.rest).map fun digit =>
      let c := if digit.isSome then c.skip 1 else c
      match digit, chomping? c.rest with
      | some _, some chomping => (chomping, digit, c.skip 1)
      | _, _ => (.clip, digit, c)

/-- Empty lines of a block scalar and the indentation of the line behind them. `indent` is zero
as long as it is not known; `widest` is the rightmost column met. -/
def blockBreaks (indent : Nat) :
    (fuel : Nat) → (widest : Nat) → List Char → Cursor → Option (List Char × Nat × Cursor)
  | 0, widest, breaks, c => some (breaks, widest, c)
  | fuel + 1, widest, breaks, c =>
    let spaces := (c.rest.takeWhile (· == ' ')).length
    let c := c.skip (if indent = 0 then spaces else min spaces (indent - c.column))
    let widest := max widest c.column
    if (indent = 0 || c.column < indent) && c.rest.head? = some '\t' then none
    else
      match c.lineBreak? with
      | some (b, c) => blockBreaks indent fuel widest (breaks ++ [b]) c
      | none => some (breaks, widest, c)

/-- The lines of a block scalar. `ending` is the break behind the last line read, `breaks` are
those of the empty lines behind it, and `spaced` says that the last line began with a blank. -/
def blockLines (folded : Bool) (indent : Nat) :
    (fuel : Nat) → (found ending breaks : List Char) → (spaced : Bool) → Cursor →
      Option (List Char × List Char × List Char × Cursor)
  | 0, found, ending, breaks, _, c => some (found, ending, breaks, c)
  | fuel + 1, found, ending, breaks, spaced, c =>
    if c.column ≠ indent || c.rest.isEmpty then some (found, ending, breaks, c)
    else
      let blank := c.rest.head?.any isBlank
      -- between two lines that are not indented further, a break folds into a space
      let joint :=
        if folded && ending = ['\n'] && !spaced && !blank then
          if breaks.isEmpty then [' '] else []
        else ending
      let line := c.rest.takeWhile (!isBreak ·)
      let found := found ++ joint ++ breaks ++ line
      let c := c.skip line.length
      let (ending, c) := match c.lineBreak? with
        | some (b, c) => ([b], c)
        | none => ([], c)
      (blockBreaks indent c.rest.length 0 [] c).bind fun (breaks, _, c) =>
        blockLines folded indent fuel found ending breaks blank c

/-- A block scalar from behind its bar or angle bracket; `margin` is the least column that its
lines may start in. -/
def blockScalar (folded : Bool) (margin : Nat) (c : Cursor) : Option (List Char × Cursor) :=
  (blockHeader? c).bind fun (chomping, digit, c) =>
    let c := c.skipToLineEnd
    if !endsLine c.rest then none
    else
      let c := c.skipBreak
      let indent := match digit with
        | some n => margin - 1 + n
        | none => 0
      (blockBreaks indent (c.rest.length + 1) 0 [] c).bind fun (breaks, widest, c) =>
        -- the first line that is not empty sets the indentation, if no digit does
        let indent := if indent = 0 then max (max widest margin) 1 else indent
        (blockLines folded indent (c.rest.length + 1) [] [] breaks false c).map
          fun (found, ending, breaks, c) =>
            match chomping with
            | .strip => (found, c)
            | .clip => (found ++ ending, c)
            | .keep => (found ++ ending ++ breaks, c)

end DocGraph.Yaml
