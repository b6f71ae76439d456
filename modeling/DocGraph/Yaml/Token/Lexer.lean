import DocGraph.Yaml.Scalar
import DocGraph.Yaml.Token

/-!
# DocGraph: from YAML text to tokens

Blocks are marked by indentation alone, so the lexer keeps the columns of the blocks that are
open, and a key is known only by the colon behind it, so it keeps where one may have begun. When
the colon comes, the mark of the key is put in front of the tokens read since.

A key must stand on one line and within 1024 characters of its colon. One that stands where only
a key can stand must have its colon.
-/

namespace DocGraph.Yaml

/-- A place where a key may have begun. -/
structure KeyStart where
  /-- Nothing but a key can stand here. -/
  required : Bool
  /-- How many tokens come before it. -/
  token : Nat
  index : Nat
  line : Nat
  column : Nat

structure Lexer where
  cursor : Cursor
  tokens : Array Token
  /-- The column of the innermost open block, and of those around it. -/
  indent : Int
  outerIndents : List Int
  /-- A key may begin at the next token. -/
  keyAllowed : Bool
  /-- Where a key may have begun: between the innermost brackets, and around them. -/
  keyStart : Option KeyStart
  outerKeyStarts : List (Option KeyStart)

namespace Lexer

def start (s : List Char) : Lexer where
  cursor := .start s
  tokens := #[]
  indent := -1
  outerIndents := []
  keyAllowed := true
  keyStart := none
  outerKeyStarts := []

/-- The place is between brackets, where indentation means nothing. -/
def inFlow (l : Lexer) : Bool :=
  !l.outerKeyStarts.isEmpty

def emit (l : Lexer) (t : Token) : Lexer :=
  { l with tokens := l.tokens.push t }

/-- Emits a token of `n` characters. -/
def take (l : Lexer) (n : Nat) (t : Token) : Lexer :=
  { l.emit t with cursor := l.cursor.skip n }

def allowKey (l : Lexer) (allowed : Bool) : Lexer :=
  { l with keyAllowed := allowed }

/-! ## Keys -/

/-- No key began at the place kept. -/
def dropKey (l : Lexer) : Option Lexer :=
  if l.keyStart.any KeyStart.required then none else some { l with keyStart := none }

/-- Keeps this place, if a key may begin here. -/
def keepKey (l : Lexer) : Option Lexer :=
  if l.keyAllowed then
    l.dropKey.map fun l =>
      { l with
        keyStart := some
          { required := !l.inFlow && l.indent = l.cursor.column
            token := l.tokens.size
            index := l.cursor.index
            line := l.cursor.line
            column := l.cursor.column } }
  else some l

def KeyStart.isStale (k : KeyStart) (c : Cursor) : Bool :=
  k.line < c.line || k.index + 1024 < c.index

/-- Forgets a place that is too far away; one that is required must not be forgotten. -/
def freshKey (c : Cursor) (k : Option KeyStart) : Option (Option KeyStart) :=
  match k with
  | none => some none
  | some k => if KeyStart.isStale k c then if k.required then none else some none else some (some k)

def dropStaleKeys (l : Lexer) : Option Lexer :=
  (freshKey l.cursor l.keyStart).bind fun keyStart =>
    (l.outerKeyStarts.mapM (freshKey l.cursor)).map fun outerKeyStarts =>
      { l with keyStart, outerKeyStarts }

/-! ## Blocks -/

/-- Opens a block at a column right of the innermost one; `place` is where its token goes. -/
def openBlock (l : Lexer) (column : Nat) (place : Nat) (t : Token) : Lexer :=
  if !l.inFlow && l.indent < column then
    { l with
      tokens := l.tokens.insertIdxIfInBounds place t
      indent := column
      outerIndents := l.indent :: l.outerIndents }
  else l

def closeBlocksFrom (column : Int) (indent : Int) (tokens : Array Token) :
    List Int → Int × List Int × Array Token
  | [] => (indent, [], tokens)
  | outer :: rest =>
    if column < indent then closeBlocksFrom column outer (tokens.push .blockEnd) rest
    else (indent, outer :: rest, tokens)

/-- Closes the blocks right of a column. -/
def closeBlocks (l : Lexer) (column : Int) : Lexer :=
  if l.inFlow then l
  else
    let (indent, outerIndents, tokens) := closeBlocksFrom column l.indent l.tokens l.outerIndents
    { l with indent, outerIndents, tokens }

/-! ## Tokens -/

/-- Past blanks, comments and line breaks. A tab may stand only where no key can begin. -/
def skipSpace : (fuel : Nat) → Lexer → Lexer
  | 0, l => l
  | fuel + 1, l =>
    let tabs := l.inFlow || !l.keyAllowed
    -- a byte order mark counts only at the very start
    let c := if l.cursor.index = 0 && l.cursor.rest.head? = some '\ufeff' then l.cursor.skip 1
      else l.cursor
    let c := c.skipWhile fun ch => ch == ' ' || (tabs && ch == '\t')
    let c := if c.rest.head? = some '#' then c.skipWhile (!isBreak ·) else c
    match c.lineBreak? with
    | some (_, c) => skipSpace fuel { l with cursor := c, keyAllowed := l.keyAllowed || !l.inFlow }
    | none => { l with cursor := c }

/-- The end of all blocks, in front of a directive, a document mark or the end of the text. -/
def closeDocument (l : Lexer) : Option Lexer :=
  (l.closeBlocks (-1)).dropKey.map (·.allowKey false)

def openBracket (l : Lexer) (t : Token) : Option Lexer :=
  l.keepKey.map fun l =>
    let l := l.take 1 t
    { l with
      keyAllowed := true
      keyStart := none
      outerKeyStarts := l.keyStart :: l.outerKeyStarts }

def closeBracket (l : Lexer) (t : Token) : Option Lexer :=
  l.dropKey.map fun l =>
    let l := (l.take 1 t).allowKey false
    match l.outerKeyStarts with
    | [] => l
    | keyStart :: outerKeyStarts => { l with keyStart, outerKeyStarts }

def entrySeparator (l : Lexer) : Option Lexer :=
  l.dropKey.map fun l => (l.allowKey true).take 1 .flowEntry

def blockEntry (l : Lexer) : Option Lexer :=
  if !l.inFlow && !l.keyAllowed then none
  else
    (l.openBlock l.cursor.column l.tokens.size .blockSequenceStart).dropKey.map fun l =>
      (l.allowKey true).take 1 .blockEntry

def explicitKey (l : Lexer) : Option Lexer :=
  if !l.inFlow && !l.keyAllowed then none
  else
    (l.openBlock l.cursor.column l.tokens.size .blockMappingStart).dropKey.map fun l =>
      (l.allowKey (!l.inFlow)).take 1 .key

/-- The colon behind a key. -/
def valueMark (l : Lexer) : Option Lexer :=
  match l.keyStart with
  | some k =>
    -- the mark goes in front of what turned out to be a key, and so does that of its block
    let l := { l with tokens := l.tokens.insertIdxIfInBounds k.token .key, keyStart := none }
    some (((l.openBlock k.column k.token .blockMappingStart).allowKey false).take 1 .value)
  | none =>
    -- an empty key
    if l.inFlow then some ((l.allowKey false).take 1 .value)
    else if l.keyAllowed then
      some ((l.openBlock l.cursor.column l.tokens.size .blockMappingStart).take 1 .value)
    else none

/-- A token that may be a key by itself, read by `read` from this place. -/
def keyToken (l : Lexer) (read : Cursor → Option (Token × Cursor)) : Option Lexer :=
  l.keepKey.bind fun l =>
    (read l.cursor).map fun (t, cursor) => { (l.allowKey false).emit t with cursor }

def quoted (l : Lexer) (single : Bool) : Option Lexer :=
  l.keyToken fun c =>
    (quotedScalar single (c.rest.length + 1) [] (c.skip 1)).map fun (cs, c) =>
      (.scalar false (String.ofList cs), c)

def block (l : Lexer) (folded : Bool) : Option Lexer :=
  l.dropKey.bind fun l =>
    (blockScalar folded (l.indent + 1).toNat (l.cursor.skip 1)).map fun (cs, cursor) =>
      { (l.allowKey true).emit (.scalar false (String.ofList cs)) with cursor }

/-- A plain scalar; if it ends its line, a key may begin behind it. -/
def plain (l : Lexer) : Option Lexer :=
  l.keepKey.bind fun l =>
    let margin := (l.indent + 1).toNat
    (plainScalar l.inFlow margin (l.cursor.rest.length + 1) [] .none l.cursor).map
      fun (cs, broken, cursor) =>
        { (l.allowKey broken).emit (.scalar true (String.ofList cs)) with cursor }

/-- The characters that start no plain scalar, unless what follows them says otherwise. -/
def indicators : List Char :=
  ['-', '?', ':', ',', '[', ']', '\x7b', '\x7d', '#', '&', '*', '!', '|', '>', '\'', '"', '%',
    '@', '\x60']

def startsPlain (flow : Bool) (c : Char) (s : List Char) : Bool :=
  !(isBlank c || isBreak c || indicators.contains c)
    || (c = '-' && !s.head?.any isBlank)
    || (!flow && (c = '?' || c = ':') && !endsWord s)

/-- Reads the token at this place, whose text is `c :: s`. -/
def readToken (l : Lexer) (c : Char) (s : List Char) : Option Lexer :=
  let flow := l.inFlow
  -- directives and document marks
  if l.cursor.column = 0 && c = '%' then
    l.closeDocument.bind fun l =>
      (directive? (l.cursor.skip 1)).map fun (t, cursor) => { l.emit t with cursor }
  else if l.cursor.atDocumentMark then
    l.closeDocument.map (·.take 3 (if c = '-' then .documentStart else .documentEnd))
  -- brackets
  else if c = '[' then l.openBracket .flowSequenceStart
  else if c = '\x7b' then l.openBracket .flowMappingStart
  else if c = ']' then l.closeBracket .flowSequenceEnd
  else if c = '\x7d' then l.closeBracket .flowMappingEnd
  -- the marks of items and entries
  else if c = ',' then l.entrySeparator
  else if c = '-' && endsWord s then l.blockEntry
  else if c = '?' && (flow || endsWord s) then l.explicitKey
  else if c = ':' && (flow || endsWord s) then l.valueMark
  -- names and tags
  else if c = '*' then
    l.keyToken fun c => (anchorName? (c.skip 1)).map fun (name, c) => (.alias name, c)
  else if c = '&' then
    l.keyToken fun c => (anchorName? (c.skip 1)).map fun (name, c) => (.anchor name, c)
  else if c = '!' then l.keyToken (tagToken? flow)
  -- scalars
  else if c = '|' && !flow then l.block false
  else if c = '>' && !flow then l.block true
  else if c = '\'' then l.quoted true
  else if c = '"' then l.quoted false
  else if startsPlain flow c s then l.plain
  else none

/-- Reads tokens to the end of the text. Each takes a character, so `fuel` need not exceed the
length of the text. -/
def run : (fuel : Nat) → Lexer → Option (Array Token)
  | 0, _ => none
  | fuel + 1, l =>
    (skipSpace (l.cursor.rest.length + 1) l).dropStaleKeys.bind fun l =>
      let l := l.closeBlocks l.cursor.column
      match l.cursor.rest with
      | [] => l.closeDocument.map Lexer.tokens
      | c :: s => (l.readToken c s).bind (run fuel)

end Lexer

/-- The tokens of a text. -/
def tokens? (s : String) : Option (List Token) :=
  let cs := s.toList
  if cs.all isAllowed then ((Lexer.start cs).run (cs.length + 1)).map Array.toList else none

end DocGraph.Yaml
