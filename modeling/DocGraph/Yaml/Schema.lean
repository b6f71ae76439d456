import DocGraph.Decimal.Read
import DocGraph.Text.Digit
import DocGraph.Yaml.Basic

/-!
# DocGraph: what a plain YAML scalar means

A plain scalar is null, a boolean, a number or, failing these, a text. Whole numbers may be
written in four bases; digits behind a leading zero are a text. A whole number too large for
64 bits is refused, and one too large for 128 bits is a double.

A tag of the standard asks for one of these readings and refuses the text if it does not fit.
-/

namespace DocGraph.Yaml

def isNullText (s : String) : Bool :=
  s = "null" || s = "Null" || s = "NULL" || s = "~"

def bool? (s : String) : Option Bool :=
  if s = "true" || s = "True" || s = "TRUE" then some true
  else if s = "false" || s = "False" || s = "FALSE" then some false
  else none

/-- Several digits of which the first is zero, with or without a sign. -/
def isPaddedDigits (s : List Char) : Bool :=
  let digits := match s with
    | '-' :: rest => rest
    | '+' :: rest => rest
    | _ => s
  1 < digits.length && digits.head? = some '0' && digits.all Char.isDigit

/-- Digits, in the base that is written in front of them. -/
def based? : List Char → Option Nat
  | '0' :: 'x' :: rest => Text.digits? 16 rest
  | '0' :: 'o' :: rest => Text.digits? 8 rest
  | '0' :: 'b' :: rest => Text.digits? 2 rest
  | s => if isPaddedDigits s then none else Text.digits? 10 s

def integer? : List Char → Option Int
  | '-' :: rest => (based? rest).map fun n => -(n : Int)
  | '+' :: rest => (based? rest).map Int.ofNat
  | s => (based? s).map Int.ofNat

/-- A whole number: `none` if the text is none, `some none` if it is one that is refused. -/
def wholeNumber? (s : String) : Option (Option Numeral) :=
  match integer? s.toList with
  | none => none
  | some n =>
    if Int64.minValue.toInt ≤ n && n < UInt64.size then some (some (.integer n))
    -- it fits 128 bits, so it is no double either
    else if -(Nat.pow 2 127 : Nat) ≤ n && n < Nat.pow 2 128 then some none
    else none

def double? (s : String) : Option Float :=
  if s = ".inf" || s = ".Inf" || s = ".INF" || s = "+.inf" || s = "+.Inf" || s = "+.INF" then
    some (Float.ofBits 0x7ff0000000000000)
  else if s = "-.inf" || s = "-.Inf" || s = "-.INF" then some (Float.ofBits 0xfff0000000000000)
  else if s = ".nan" || s = ".NaN" || s = ".NAN" then some (Float.ofBits 0x7ff8000000000000)
  else (Decimal.parse? s.toList).filter Float.isFinite

/-- A plain scalar without a tag. -/
def ofPlain? (s : String) : Option Yaml :=
  if s.isEmpty || isNullText s then some .null
  else
    match bool? s with
    | some b => some (.bool b)
    | none =>
      match wholeNumber? s with
      | some n => n.map .number
      | none =>
        match if isPaddedDigits s.toList then none else double? s with
        | some x => some (.number (.float x))
        | none => some (.text s)

/-- A scalar whose tag, if any, is not one of the document's own. -/
def ofScalar? (tag : Option String) (plain : Bool) (s : String) : Option Yaml :=
  match tag with
  | none => if plain then ofPlain? s else some (.text s)
  | some "tag:yaml.org,2002:bool" => (bool? s).map .bool
  | some "tag:yaml.org,2002:int" => (wholeNumber? s).join.map .number
  | some "tag:yaml.org,2002:float" => (double? s).map fun x => .number (.float x)
  | some "tag:yaml.org,2002:null" => if isNullText s then some .null else none
  | some _ => some (.text s)

end DocGraph.Yaml
