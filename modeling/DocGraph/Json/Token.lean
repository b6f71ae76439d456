import DocGraph.Decimal.Read
import DocGraph.Numeral
import DocGraph.Text.Digit

/-!
# DocGraph: JSON tokens

The lexical grammar: punctuation, words, strings and numbers, with blanks between them. A string
holds no control character and no half of a surrogate pair.

A number without fraction and exponent is whole if it fits 64 bits. Any other one is a double,
made from the leading digits that fit 64 bits by one multiplication or division by a power of
ten, and it must be finite. This is quick and may be one unit off the nearest double.
-/

namespace DocGraph.Json

inductive Token where
  | openObject
  | closeObject
  | openArray
  | closeArray
  | colon
  | comma
  | null
  | bool (b : Bool)
  | number (n : Numeral)
  | text (s : String)

/-! ## Strings -/

/-- The number that four hexadecimal digits at the front of a text make. -/
def hexUnit? (s : List Char) : Option Nat :=
  if (s.take 4).length = 4 then Text.digits? 16 (s.take 4) else none

/-- The character behind `\u`, and how many characters its digits take. A unit of the upper half
of the surrogates must be followed by one of the lower half. -/
def unicodeEscape? (s : List Char) : Option (Char × Nat) :=
  (hexUnit? s).bind fun high =>
    -- a unit outside the surrogates stands for itself
    if high < 0xd800 || 0xdfff < high then some (Char.ofNat high, 4)
    else if 0xdc00 ≤ high then none
    else
      match s.drop 4 with
      | '\\' :: 'u' :: rest =>
        (hexUnit? rest).bind fun low =>
          if 0xdc00 ≤ low && low ≤ 0xdfff then
            some (Char.ofNat (0x10000 + (high - 0xd800) * 0x400 + (low - 0xdc00)), 10)
          else none
      | _ => none

/-- The character that an escape stands for, given the text behind the backslash, and how many
characters of that text it takes. -/
def escape? : List Char → Option (Char × Nat)
  | '"' :: _ => some ('"', 1)
  | '\\' :: _ => some ('\\', 1)
  | '/' :: _ => some ('/', 1)
  | 'b' :: _ => some ('\x08', 1)
  | 'f' :: _ => some ('\x0c', 1)
  | 'n' :: _ => some ('\n', 1)
  | 'r' :: _ => some ('\r', 1)
  | 't' :: _ => some ('\t', 1)
  | 'u' :: rest => (unicodeEscape? rest).map fun (c, n) => (c, n + 1)
  | _ => none

/-- A string up to its closing quote, and the text behind that. -/
def stringBody? (s : List Char) : Option (List Char × List Char) :=
  match s with
  | [] => none
  | '"' :: rest => some ([], rest)
  | '\\' :: rest =>
    (escape? rest).bind fun (c, n) =>
      (stringBody? (rest.drop n)).map fun (cs, rest) => (c :: cs, rest)
  | c :: rest =>
    if c.toNat < 0x20 then none
    else (stringBody? rest).map fun (cs, rest) => (c :: cs, rest)
termination_by s.length
decreasing_by
  all_goals simp only [List.length_cons, List.length_drop]
  all_goals omega

/-! ## Numbers -/

/-- The bound of a significand. -/
def significandBound : Nat := UInt64.size

/-- A number in the making: `significand * 10 ^ exponent`. -/
structure Magnitude where
  significand : Nat
  exponent : Int

/-- Takes up digits as long as the significand stays below its bound. The digits left over come
second. -/
def Magnitude.absorb (significand : Nat) : List Char → Nat × List Char
  | [] => (significand, [])
  | c :: rest =>
    let next := 10 * significand + (c.toNat - '0'.toNat)
    if next < significandBound then absorb next rest else (significand, c :: rest)

/-- Digits before the point; those beyond the bound only scale. -/
def Magnitude.ofDigits (digits : List Char) : Magnitude :=
  let (n, rest) := absorb 0 digits
  ⟨n, rest.length⟩

/-- Digits behind the point; those beyond the bound are dropped. -/
def Magnitude.withFraction (m : Magnitude) (digits : List Char) : Magnitude :=
  let (n, rest) := absorb m.significand digits
  ⟨n, m.exponent - (digits.length - rest.length : Nat)⟩

/-- Multiplies or divides by a power of ten; an infinite result is refused. -/
def scale? (x : Float) (exponent : Int) : Option Float :=
  -- only zero stays finite
  if 308 < exponent then if x == 0 then some x else none
  else if 0 ≤ exponent then
    let y := x * Decimal.nearest 1 exponent
    if y.isInf then none else some y
  else if -308 ≤ exponent then some (x / Decimal.nearest 1 (-exponent))
  else if x == 0 then some x
  -- a power beyond the range is taken in steps
  else scale? (x / Decimal.nearest 1 308) (exponent + 308)
termination_by (-exponent).toNat
decreasing_by omega

def Magnitude.toFloat? (m : Magnitude) : Option Float :=
  scale? (Float.ofNat m.significand) m.exponent

/-- An unsigned number: its magnitude, and whether it is written without fraction and exponent. -/
def magnitude? (s : List Char) : Option (Magnitude × Bool) :=
  let digits := s.takeWhile Char.isDigit
  let rest := s.dropWhile Char.isDigit
  if digits.isEmpty || (1 < digits.length && digits.head? == some '0') then none
  else
    let whole := Magnitude.ofDigits digits
    let scaled (m : Magnitude) (e : List Char) : Option (Magnitude × Bool) :=
      (Decimal.integer? e).map fun n => ({ m with exponent := m.exponent + n }, false)
    match rest with
    -- digits that were left over make it a double
    | [] => some (whole, whole.exponent = 0)
    | '.' :: rest =>
      let fraction := rest.takeWhile Char.isDigit
      if fraction.isEmpty then none
      else
        let m := whole.withFraction fraction
        match rest.dropWhile Char.isDigit with
        | [] => some (m, false)
        | c :: e => if c = 'e' || c = 'E' then scaled m e else none
    | c :: e => if c = 'e' || c = 'E' then scaled whole e else none

/-- A number as a whole. A negative whole number that does not fit becomes a double, and so does
negative zero, to keep its sign. -/
def number? (s : List Char) : Option Numeral :=
  match s with
  | '-' :: rest =>
    (magnitude? rest).bind fun (m, whole) =>
      if whole && 0 < m.significand && fitsInt64 (-(m.significand : Int)) then
        some (.integer (-(m.significand : Int)))
      else m.toFloat?.map fun x => .float (-x)
  | _ =>
    (magnitude? s).bind fun (m, whole) =>
      if whole then some (.integer m.significand) else m.toFloat?.map .float

/-- The characters that occur in numbers. -/
def isNumeric (c : Char) : Bool :=
  c.isDigit || c == '-' || c == '+' || c == '.' || c == 'e' || c == 'E'

/-! ## Texts -/

def isSpace (c : Char) : Bool :=
  c == ' ' || c == '\n' || c == '\t' || c == '\r'

/-- The token of a single character. -/
def punctuation? : Char → Option Token
  | '\x7b' => some .openObject
  | '\x7d' => some .closeObject
  | '[' => some .openArray
  | ']' => some .closeArray
  | ':' => some .colon
  | ',' => some .comma
  | _ => none

/-- The token at the front of a text, and the text behind it. -/
def token? : List Char → Option (Token × List Char)
  | [] => none
  | '"' :: rest => (stringBody? rest).map fun (cs, rest) => (.text (String.ofList cs), rest)
  | 'n' :: 'u' :: 'l' :: 'l' :: rest => some (.null, rest)
  | 't' :: 'r' :: 'u' :: 'e' :: rest => some (.bool true, rest)
  | 'f' :: 'a' :: 'l' :: 's' :: 'e' :: rest => some (.bool false, rest)
  | c :: rest =>
    match punctuation? c with
    | some t => some (t, rest)
    | none =>
      (number? ((c :: rest).takeWhile isNumeric)).map fun n =>
        (.number n, (c :: rest).dropWhile isNumeric)

/-- Cuts a text into tokens; `fuel` bounds their number. -/
def tokensWithin : (fuel : Nat) → List Char → Option (List Token)
  | 0, s => if (s.dropWhile isSpace).isEmpty then some [] else none
  | fuel + 1, s =>
    match s.dropWhile isSpace with
    | [] => some []
    | c :: rest => (token? (c :: rest)).bind fun (t, rest) => (tokensWithin fuel rest).map (t :: ·)

/-- The tokens of a text. Each takes at least one character, so their number is bounded. -/
def tokens? (s : String) : Option (List Token) :=
  tokensWithin s.length s.toList

end DocGraph.Json
