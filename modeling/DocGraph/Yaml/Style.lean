import DocGraph.Yaml.Cursor
import DocGraph.Yaml.Schema

/-!
# DocGraph: how a YAML text may be written

What characters a text holds, and where, decides in which of the four styles it can be written so
that it reads back: plain, in single quotes, in double quotes, or as a literal block. A text of
several lines is a block wherever one may stand; one that would read as something else than a
text is quoted.
-/

namespace DocGraph.Yaml

inductive Style where
  | plain
  | singleQuoted
  | doubleQuoted
  | literal
deriving DecidableEq

/-- The characters that may be written as they are. -/
def isPrintable (c : Char) : Bool :=
  let n := c.toNat
  n == 0x0a || (0x20 ≤ n && n ≤ 0x7e) || (0xa0 ≤ n && n ≤ 0xd7ff)
    || (0xe000 ≤ n && n ≤ 0xfffd && n != 0xfeff) || 0x10000 ≤ n

/-- The characters that start no plain text. -/
def isLeadIndicator (c : Char) : Bool :=
  ['#', ',', '[', ']', '\x7b', '\x7d', '&', '*', '!', '|', '>', '\'', '"', '%', '@',
    '\x60'].contains c

/-- An indicator at the start of a text: one of those above, or a hyphen, question mark or colon
that stands alone, or a document mark. -/
def hasLeadIndicator (s : List Char) : Bool :=
  match s with
  | [] => false
  | c :: rest =>
    isLeadIndicator c || (['?', ':', '-'].contains c && endsWord rest)
      || ['-', '-', '-'].isPrefixOf s || ['.', '.', '.'].isPrefixOf s

/-- A colon that ends a word or a hash that begins one, behind the first character. -/
def hasInnerIndicator (previous : Char) : List Char → Bool
  | [] => false
  | c :: rest =>
    (c = ':' && endsWord rest) || (c = '#' && (isBlank previous || isBreak previous))
      || hasInnerIndicator c rest

/-- Some character of the first kind stands directly before one of the second. -/
def hasPair (p q : Char → Bool) : List Char → Bool
  | a :: b :: rest => (p a && q b) || hasPair p q (b :: rest)
  | _ => false

/-- What can be said of a text as a whole. -/
structure Features where
  multiline : Bool
  plain : Bool
  singleQuoted : Bool
  block : Bool

def Features.of (s : List Char) : Features :=
  if s.isEmpty then ⟨false, true, true, false⟩
  else
    let isSpace (c : Char) := c == ' '
    let isEdge (c : Char) := isSpace c || isBreak c
    let special := !s.all isPrintable || hasPair isSpace isBreak s
    let breakSpace := hasPair isBreak isSpace s
    let multiline := s.any isBreak
    let edges := s.head?.any isEdge || s.getLast?.any isEdge
    let indicator := hasLeadIndicator s || hasInnerIndicator (s.headD ' ') s.tail
    { multiline
      plain := !(edges || breakSpace || special || multiline || indicator)
      singleQuoted := !(breakSpace || special)
      block := !(s.getLast?.any isSpace || special) }

/-- The text would be read as null, a boolean, a number or one out of range, or looks like a
number with a zero in front. -/
def readsOtherwise (s : String) : Bool :=
  isPaddedDigits s.toList ||
    match ofPlain? s with
    | some (.text _) => false
    | _ => true

/-- The style of a text; `asKey` says that it stands in front of a colon on its line. -/
def styleOf (asKey : Bool) (s : String) : Style :=
  let cs := s.toList
  let f := Features.of cs
  let single := if f.singleQuoted then Style.singleQuoted else .doubleQuoted
  if cs.contains '\n' then
    if asKey || !f.block then .doubleQuoted else .literal
  else if asKey && f.multiline then .doubleQuoted
  else if readsOtherwise s then single
  else if f.plain && !(asKey && cs.isEmpty) then .plain
  else single

/-! ## Texts in a style -/

def escapeLetter? (c : Char) : Option Char :=
  match c with
  | '\x00' => some '0'
  | '\x07' => some 'a'
  | '\x08' => some 'b'
  | '\t' => some 't'
  | '\n' => some 'n'
  | '\x0b' => some 'v'
  | '\x0c' => some 'f'
  | '\r' => some 'r'
  | '\x1b' => some 'e'
  | '"' => some '"'
  | '\\' => some '\\'
  | '\u0085' => some 'N'
  | '\u2028' => some 'L'
  | '\u2029' => some 'P'
  | _ => none

def hexUpper (width n : Nat) : List Char :=
  let digits := (Nat.toDigits 16 n).map Char.toUpper
  List.replicate (width - digits.length) '0' ++ digits

def escapeChar (c : Char) : List Char :=
  if isPrintable c && !isBreak c && c != '"' && c != '\\' then [c]
  else
    match escapeLetter? c with
    | some letter => ['\\', letter]
    | none =>
      let n := c.toNat
      if n ≤ 0xff then '\\' :: 'x' :: hexUpper 2 n
      else if n ≤ 0xffff then '\\' :: 'u' :: hexUpper 4 n
      else '\\' :: 'U' :: hexUpper 8 n

/-- The marks behind the bar of a literal block: two if the text begins with a space or a break,
and how its end is to be read. -/
def blockHints (s : List Char) : List Char :=
  let lead := if s.head?.any fun c => c == ' ' || isBreak c then ['2'] else []
  let tail := match s.reverse with
    | [] => ['-']
    | [c] => if isBreak c then ['+'] else ['-']
    | c :: d :: _ => if !isBreak c then ['-'] else if isBreak d then ['+'] else []
  lead ++ tail

end DocGraph.Yaml
