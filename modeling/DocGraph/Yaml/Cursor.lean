/-!
# DocGraph: places in a YAML text

The character classes of YAML and a cursor that knows its line and column. Besides carriage
return and line feed there are three more line breaks; of these the next-line character counts as
a line feed, and the two Unicode separators stand for themselves.
-/

namespace DocGraph.Yaml

/-- The characters that may occur in a text at all. -/
def isAllowed (c : Char) : Bool :=
  let n := c.toNat
  n == 0x09 || n == 0x0a || n == 0x0d || (0x20 ≤ n && n ≤ 0x7e) || n == 0x85
    || (0xa0 ≤ n && n ≤ 0xd7ff) || (0xe000 ≤ n && n ≤ 0xfffd) || 0x10000 ≤ n

def isBlank (c : Char) : Bool :=
  c == ' ' || c == '\t'

def isBreak (c : Char) : Bool :=
  c == '\r' || c == '\n' || c == '\u0085' || c == '\u2028' || c == '\u2029'

/-- The characters of names: ASCII letters and digits, hyphen and underscore. -/
def isWord (c : Char) : Bool :=
  c.isAlphanum || c == '_' || c == '-'

/-- The text starts with a blank or a break, or is at its end. -/
def endsWord : List Char → Bool
  | [] => true
  | c :: _ => isBlank c || isBreak c

def endsLine : List Char → Bool
  | [] => true
  | c :: _ => isBreak c

/-- The line break at the front of a text as it counts, and how many characters it takes. -/
def lineBreak? : List Char → Option (Char × Nat)
  | '\r' :: '\n' :: _ => some ('\n', 2)
  | c :: _ =>
    if c == '\u2028' || c == '\u2029' then some (c, 1)
    else if isBreak c then some ('\n', 1)
    else none
  | [] => none

/-- The text starts with three hyphens or three points that stand alone. -/
def isDocumentMark (s : List Char) : Bool :=
  match s with
  | '-' :: '-' :: '-' :: rest => endsWord rest
  | '.' :: '.' :: '.' :: rest => endsWord rest
  | _ => false

/-- A place in a text, and the text from there on. -/
structure Cursor where
  rest : List Char
  index : Nat
  line : Nat
  column : Nat

namespace Cursor

def start (s : List Char) : Cursor := ⟨s, 0, 0, 0⟩

/-- Past `n` characters of the same line. -/
def skip (c : Cursor) (n : Nat) : Cursor :=
  { c with rest := c.rest.drop n, index := c.index + n, column := c.column + n }

/-- Up to `rest`, which is the end of the text of this line. -/
def moveTo (c : Cursor) (rest : List Char) : Cursor :=
  { (c.skip (c.rest.length - rest.length)) with rest }

def skipWhile (c : Cursor) (p : Char → Bool) : Cursor :=
  c.skip (c.rest.takeWhile p).length

/-- Past the line break at this place, with the character it counts as. -/
def lineBreak? (c : Cursor) : Option (Char × Cursor) :=
  (Yaml.lineBreak? c.rest).map fun (b, n) =>
    (b, { rest := c.rest.drop n, index := c.index + n, line := c.line + 1, column := 0 })

def skipBreak (c : Cursor) : Cursor :=
  match c.lineBreak? with
  | some (_, c) => c
  | none => c

/-- Past blanks and a comment. -/
def skipToLineEnd (c : Cursor) : Cursor :=
  let c := c.skipWhile isBlank
  if c.rest.head? = some '#' then c.skipWhile (!isBreak ·) else c

/-- At a document mark in the first column. -/
def atDocumentMark (c : Cursor) : Bool :=
  c.column = 0 && isDocumentMark c.rest

end Cursor

end DocGraph.Yaml
