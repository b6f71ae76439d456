import DocGraph.Text.Digit
import DocGraph.Yaml.Cursor

/-!
# DocGraph: YAML tokens

The marks of the layout (where blocks start and end, where entries, keys and values begin), the
scalars, and what stands in front of nodes and documents.
-/

namespace DocGraph.Yaml

inductive Token where
  | versionDirective (major minor : Nat)
  | tagDirective (handle uri : String)
  | documentStart
  | documentEnd
  | blockSequenceStart
  | blockMappingStart
  | blockEnd
  | flowSequenceStart
  | flowSequenceEnd
  | flowMappingStart
  | flowMappingEnd
  | blockEntry
  | flowEntry
  | key
  | value
  | alias (name : String)
  | anchor (name : String)
  | tag (handle suffix : String)
  | scalar (plain : Bool) (text : String)
deriving DecidableEq

/-! ## Names and tags -/

/-- The name of an anchor or an alias, and the cursor behind it. -/
def anchorName? (c : Cursor) : Option (String × Cursor) :=
  let name := c.rest.takeWhile isWord
  let next := c.skip name.length
  let ended := endsWord next.rest
    || next.rest.head?.any fun d => ['?', ':', ',', ']', '\x7d', '%', '@', '\x60'].contains d
  if name.isEmpty || !ended then none else some (String.ofList name, next)

/-- A byte written as a percent sign and two digits. -/
def escapedByte? : List Char → Option Nat
  | '%' :: a :: b :: _ => Text.digits? 16 [a, b]
  | _ => none

/-- The number of bytes of a character, told by its first byte. -/
def byteCount? (byte : Nat) : Option Nat :=
  if byte < 0x80 then some 1
  else if byte / 0x20 = 6 then some 2
  else if byte / 0x10 = 14 then some 3
  else if byte / 0x08 = 30 then some 4
  else none

/-- The further bytes of a character, each an escape of its own. -/
def trailingBytes? : (count : Nat) → (code : Nat) → List Char → Option (Nat × List Char)
  | 0, code, s => some (code, s)
  | count + 1, code, s =>
    (escapedByte? s).bind fun byte =>
      if byte / 0x40 = 2 then trailingBytes? count (0x40 * code + byte % 0x40) (s.drop 3) else none

/-- A character written as a row of escaped bytes. -/
def escapedChar? (s : List Char) : Option (Char × List Char) :=
  (escapedByte? s).bind fun byte =>
    (byteCount? byte).bind fun count =>
      let lead := if count = 1 then byte else byte % Nat.pow 2 (7 - count)
      (trailingBytes? (count - 1) lead (s.drop 3)).map fun (code, rest) => (Char.ofNat code, rest)

/-- The characters of tags; `verbatim` tags stand in angle brackets and admit three more. -/
def isTagChar (verbatim : Bool) (c : Char) : Bool :=
  isWord c
    || [';', '/', '?', ':', '@', '&', '=', '+', '$', '.', '!', '~', '*', '\'', '(', ')'].contains c
    || (verbatim && [',', '[', ']'].contains c)

/-- The text of a tag as far as its characters go. -/
def tagText (verbatim : Bool) : (fuel : Nat) → List Char → Option (List Char × List Char)
  | 0, s => some ([], s)
  | _ + 1, [] => some ([], [])
  | fuel + 1, c :: s =>
    if c = '%' then
      (escapedChar? (c :: s)).bind fun (d, rest) =>
        (tagText verbatim fuel rest).map fun (cs, rest) => (d :: cs, rest)
    else if isTagChar verbatim c then
      (tagText verbatim fuel s).map fun (cs, rest) => (c :: cs, rest)
    else some ([], c :: s)

/-- A handle: an exclamation mark, a name, and perhaps another exclamation mark. -/
def tagHandle? : List Char → Option (List Char × List Char)
  | '!' :: s =>
    let name := s.takeWhile isWord
    match s.dropWhile isWord with
    | '!' :: rest => some ('!' :: name ++ ['!'], rest)
    | rest => some ('!' :: name, rest)
  | _ => none

/-- The handle and the rest of a tag at this place, and the cursor behind. -/
def tagParts? (c : Cursor) : Option (List Char × List Char × Cursor) :=
  match c.rest with
  | '!' :: '<' :: s =>
    (tagText true s.length s).bind fun (cs, rest) =>
      match rest with
      | '>' :: rest => if cs.isEmpty then none else some ([], cs, c.moveTo rest)
      | _ => none
  | s =>
    (tagHandle? s).bind fun (handle, rest) =>
      (tagText false rest.length rest).bind fun (cs, behind) =>
        if 1 < handle.length && handle.getLast? = some '!' then
          if cs.isEmpty then none else some (handle, cs, c.moveTo behind)
        else
          -- without a second exclamation mark the name belongs to the tag
          let suffix := handle.drop 1 ++ cs
          if suffix.isEmpty then some ([], ['!'], c.moveTo behind)
          else some (['!'], suffix, c.moveTo behind)

/-- A tag, which a blank, a break or, between brackets, a comma must follow. -/
def tagToken? (flow : Bool) (c : Cursor) : Option (Token × Cursor) :=
  (tagParts? c).bind fun (handle, suffix, c) =>
    if endsWord c.rest || (flow && c.rest.head? = some ',') then
      some (.tag (String.ofList handle) (String.ofList suffix), c)
    else none

/-! ## Directives -/

/-- A number of at most nine digits. -/
def versionNumber? (c : Cursor) : Option (Nat × Cursor) :=
  let digits := c.rest.takeWhile Char.isDigit
  if digits.isEmpty || 9 < digits.length then none
  else some (Nat.ofDigitChars 10 digits 0, c.skip digits.length)

def versionDirective? (c : Cursor) : Option (Token × Cursor) :=
  (versionNumber? (c.skipWhile isBlank)).bind fun (major, c) =>
    if c.rest.head? = some '.' then
      (versionNumber? (c.skip 1)).map fun (minor, c) => (.versionDirective major minor, c)
    else none

def tagDirective? (c : Cursor) : Option (Token × Cursor) :=
  let c := c.skipWhile isBlank
  (tagHandle? c.rest).bind fun (handle, rest) =>
    -- a handle other than the first two has a mark at both ends
    if handle ≠ ['!'] && !(1 < handle.length && handle.getLast? = some '!') then none
    else
      let c := c.moveTo rest
      if !c.rest.head?.any isBlank then none
      else
        let c := c.skipWhile isBlank
        (tagText true c.rest.length c.rest).bind fun (uri, rest) =>
          if uri.isEmpty || !endsWord rest then none
          else some (.tagDirective (String.ofList handle) (String.ofList uri), c.moveTo rest)

/-- A directive from behind its percent sign to the start of the next line. -/
def directive? (c : Cursor) : Option (Token × Cursor) :=
  let name := c.rest.takeWhile isWord
  let c := c.skip name.length
  if !endsWord c.rest then none
  else
    (match String.ofList name with
      | "YAML" => versionDirective? c
      | "TAG" => tagDirective? c
      | _ => none).bind fun (t, c) =>
        let c := c.skipToLineEnd
        if endsLine c.rest then some (t, c.skipBreak) else none

end DocGraph.Yaml
