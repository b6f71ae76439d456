import DocGraph.Decimal.Layout
import DocGraph.Json.Basic

/-!
# DocGraph: writing JSON

Two forms: compact, without any blank, and indented by two spaces a level. In strings the quote,
the backslash and the control characters are escaped and nothing else is.
-/

namespace DocGraph.Json

/-- Positional from `10 ^ -5` up to below `10 ^ 16`, with a point; the exponent is signed. -/
def floatLayout : Decimal.Layout where
  tie := .toEven
  positional := some (-5, 15)
  pointed := true
  plus := true
  nan := "null"
  infinity := "null"

def hexLower (n : Nat) : Char :=
  (Nat.toDigits 16 n).headD '0'

def escapeChar (c : Char) : List Char :=
  match c with
  | '"' => ['\\', '"']
  | '\\' => ['\\', '\\']
  | '\x08' => ['\\', 'b']
  | '\t' => ['\\', 't']
  | '\n' => ['\\', 'n']
  | '\x0c' => ['\\', 'f']
  | '\r' => ['\\', 'r']
  | c =>
    if c.toNat < 0x20 then
      ['\\', 'u', '0', '0', hexLower (c.toNat / 16), hexLower (c.toNat % 16)]
    else [c]

def quote (s : String) : String :=
  String.ofList ('"' :: s.toList.flatMap escapeChar ++ ['"'])

def numeral : Numeral → String
  | .integer n => toString n
  | .float x => floatLayout.float x

mutual

/-- The text of a tree without blanks. -/
def compact : Json → String
  | .null => "null"
  | .bool b => toString b
  | .number n => numeral n
  | .text s => quote s
  | .array items => "[" ++ ",".intercalate (compactItems items) ++ "]"
  | .object members => "\x7b" ++ ",".intercalate (compactMembers members) ++ "\x7d"

def compactItems : List Json → List String
  | [] => []
  | v :: rest => compact v :: compactItems rest

def compactMembers : List (String × Json) → List String
  | [] => []
  | (name, v) :: rest => (quote name ++ ":" ++ compact v) :: compactMembers rest

end

/-- Puts the parts of a container on lines of their own between the two brackets. -/
def block (opening closing : String) (indent : Nat) (parts : List String) : String :=
  if parts.isEmpty then opening ++ closing
  else
    let line := "\n" ++ String.ofList (List.replicate (2 * (indent + 1)) ' ')
    opening ++ line ++ ("," ++ line).intercalate parts ++ "\n"
      ++ String.ofList (List.replicate (2 * indent) ' ') ++ closing

mutual

/-- The text of a tree, one item or member a line, that starts `indent` levels deep. -/
def pretty (indent : Nat) : Json → String
  | .array items => block "[" "]" indent (prettyItems indent items)
  | .object members => block "\x7b" "\x7d" indent (prettyMembers indent members)
  | .null => "null"
  | .bool b => toString b
  | .number n => numeral n
  | .text s => quote s

def prettyItems (indent : Nat) : List Json → List String
  | [] => []
  | v :: rest => pretty (indent + 1) v :: prettyItems indent rest

def prettyMembers (indent : Nat) : List (String × Json) → List String
  | [] => []
  | (name, v) :: rest =>
    (quote name ++ ": " ++ pretty (indent + 1) v) :: prettyMembers indent rest

end

end DocGraph.Json
