import DocGraph.Decimal.Layout
import DocGraph.Text.Blank
import DocGraph.Yaml.Style

/-!
# DocGraph: writing YAML

Containers are written as blocks, empty ones in brackets. Entries are indented by two; a sequence
that is the value of an entry is not. A key that is short and fits a line stands in front of its
colon, any other one behind a question mark.
-/

namespace DocGraph.Yaml

/-- Positional from `10 ^ -5` up to below `10 ^ 16`, with a point; the exponent is unsigned
unless it is negative. -/
def floatLayout : Decimal.Layout where
  tie := .toEven
  positional := some (-5, 15)
  pointed := true
  plus := false
  nan := ".nan"
  infinity := ".inf"

/-- The text written so far, and what the next token needs to know of its end. -/
structure Pen where
  text : String
  column : Nat
  /-- The text ends in a blank, or in nothing. -/
  spaced : Bool
  /-- The line holds nothing but indentation and the marks of entries. -/
  fresh : Bool

namespace Pen

def start : Pen := ⟨"", 0, true, true⟩

def put (p : Pen) (s : List Char) : Pen :=
  { p with text := p.text ++ String.ofList s, column := p.column + s.length }

/-- Writes a mark, behind a blank if `apart`. -/
def mark (p : Pen) (s : List Char) (apart fresh : Bool) : Pen :=
  let p := if apart && !p.spaced then p.put [' '] else p
  { p.put s with spaced := false, fresh := p.fresh && fresh }

def newLine (p : Pen) : Pen :=
  { p with text := p.text.push '\n', column := 0 }

/-- Goes to a column, on a new line unless this one is fresh and ends before it. -/
def goTo (p : Pen) (indent : Nat) : Pen :=
  let p :=
    if !p.fresh || indent < p.column || (p.column = indent && !p.spaced) then p.newLine else p
  { p.put (List.replicate (indent - p.column) ' ') with spaced := true, fresh := true }

/-- Writes a line break that belongs to a text. -/
def putBreak (p : Pen) (c : Char) : Pen :=
  { p with text := p.text.push c, column := 0, fresh := true }

/-- Writes the lines of a text, each indented. -/
def lines (indent : Nat) (double : Bool) : (broken : Bool) → List Char → Pen → Pen
  | broken, [], p => if double && broken then p.goTo indent else p
  | broken, c :: rest, p =>
    if isBreak c then lines indent double true rest (p.putBreak c)
    else
      let p := if broken then p.goTo indent else p
      let p := p.put (if double && c = '\'' then ['\'', '\''] else [c])
      lines indent double false rest { p with fresh := false }

/-- Writes a text in a style; lines behind the first one start at the column `indent`. -/
def scalar (p : Pen) (style : Style) (indent : Nat) (s : List Char) : Pen :=
  match style with
  | .plain =>
    let p := if !p.spaced && !s.isEmpty then p.put [' '] else p
    { p.put s with spaced := false, fresh := false }
  | .singleQuoted =>
    let p := (p.mark ['\''] true false).lines indent true false s
    { p.mark ['\''] false false with spaced := false, fresh := false }
  | .doubleQuoted =>
    let p := (p.mark ['"'] true false).put (s.flatMap escapeChar)
    { p.mark ['"'] false false with spaced := false, fresh := false }
  | .literal =>
    let p := (p.mark ('|' :: blockHints s) true false).newLine
    { p with spaced := true, fresh := true }.lines indent false true s

/-- Writes the tag of a document's own. -/
def tag (p : Pen) (t : String) : Pen :=
  let p := if p.spaced then p else p.put [' ']
  { p.put t.toList with spaced := false, fresh := false }

end Pen

/-! ## Tags -/

/-- The characters of a tag that need no escape. -/
def isPlainTagChar (c : Char) : Bool :=
  isWord c
    || [';', '/', '?', ':', '@', '&', '=', '+', '$', ',', '.', '~', '*', '\'', '(', ')', '[',
      ']'].contains c

def escapeTag (s : String) : String :=
  String.ofList (s.toList.flatMap fun c =>
    if isPlainTagChar c then [c]
    else c.toString.toUTF8.toList.flatMap fun byte => '%' :: hexUpper 2 byte.toNat)

/-- The text of a tag. The lone exclamation mark is written in angle brackets. -/
def writtenTag (tag : String) : String :=
  if bareTag tag = "!" then "!<" ++ escapeTag "!" ++ ">" else "!" ++ escapeTag (bareTag tag)

/-! ## Trees -/

/-- The text and the style of a scalar; `none` for a container. -/
def scalarOf? (asKey : Bool) : Yaml → Option (Style × String)
  | .null => some (.plain, "null")
  | .bool b => some (.plain, toString b)
  | .number (.integer n) => some (.plain, toString n)
  | .number (.float x) => some (.plain, floatLayout.float x)
  | .text s => some (styleOf asKey s, s)
  | .sequence _ => none
  | .mapping _ => none
  | .tagged _ _ => none

/-- How much of a key's length its tag takes. -/
def tagSize (tag : String) : Nat :=
  if bareTag tag = "!" then 1 else 1 + (bareTag tag).utf8ByteSize

/-- A key that can stand in front of its colon: on one line, and not too long. -/
def isSimpleKey : (size : Nat) → Yaml → Bool
  | size, .tagged t inner => isSimpleKey (size + tagSize t) inner
  | size, .sequence items => items.isEmpty && size ≤ 128
  | size, .mapping entries => entries.isEmpty && size ≤ 128
  | size, .text s => !s.toList.any isBreak && size + s.utf8ByteSize ≤ 128
  | size, y =>
    match scalarOf? true y with
    | some (_, s) => size + s.utf8ByteSize ≤ 128
    | none => false

/-- Where a tree is written: at the root, as an item, as a key or as a value. -/
inductive Role where
  | root
  | item
  | simpleKey
  | entry
deriving DecidableEq

mutual

/-- Writes a tree inside a block whose entries start at column `indent`; the root is in none. -/
def write (indent : Option Nat) (role : Role) (p : Pen) : Yaml → Pen
  | .tagged t inner => write indent role (p.tag (writtenTag t)) inner
  | .sequence [] => (p.mark ['['] true false).mark [']'] false false
  | .mapping [] => (p.mark ['\x7b'] true false).mark ['\x7d'] false false
  | .sequence items =>
    -- a sequence behind its key is not indented
    let column := match indent with
      | none => 0
      | some n => if role = .entry && !p.fresh then n else n + 2
    writeItems column p items
  | .mapping entries =>
    let column := match indent with
      | none => 0
      | some n => n + 2
    writeEntries column p entries
  | y =>
    match scalarOf? (role = .simpleKey) y with
    | some (style, s) =>
      p.scalar style (match indent with | none => 2 | some n => n + 2) s.toList
    | none => p

def writeItems (column : Nat) (p : Pen) : List Yaml → Pen
  | [] => p
  | y :: rest =>
    writeItems column (write (some column) .item ((p.goTo column).mark ['-'] true true) y) rest

def writeEntries (column : Nat) (p : Pen) : List (Yaml × Yaml) → Pen
  | [] => p
  | (key, value) :: rest =>
    let p := p.goTo column
    let p :=
      if isSimpleKey 0 key then
        (write (some column) .simpleKey p key).mark [':'] false false
      else
        -- a key that does not fit: question mark, key, and the colon on a line of its own
        let p := write (some column) .entry (p.mark ['?'] true true) key
        (p.goTo column).mark [':'] true true
    writeEntries column (write (some column) .entry p value) rest

end

/-- The text of a tree, without the blanks and breaks at its end. -/
def print (y : Yaml) : String :=
  Text.trimEnd (write none .root .start y).text

end DocGraph.Yaml
