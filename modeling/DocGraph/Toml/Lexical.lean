import DocGraph.Decimal.Read
import DocGraph.Numeral
import DocGraph.Text.Digit
import DocGraph.Toml.Basic

/-!
# DocGraph: the lexical grammar of TOML

Blanks, comments and line ends; the four kinds of strings; and the scalars that need no quotes:
booleans, numbers, dates and times.
-/

namespace DocGraph.Toml

def isBlank (c : Char) : Bool :=
  c == ' ' || c == '\t'

/-- The characters of comments, and of literal strings but for the apostrophe. -/
def isText (c : Char) : Bool :=
  c == '\t' || (' ' ≤ c && c != '\x7f')

def skipBlanks (s : List Char) : List Char :=
  s.dropWhile isBlank

/-- The text behind a line end at its front. -/
def lineEnd? : List Char → Option (List Char)
  | '\n' :: rest => some rest
  | '\r' :: '\n' :: rest => some rest
  | _ => none

/-- The text behind a comment, if there is one. -/
def skipComment : List Char → List Char
  | '#' :: rest => rest.dropWhile isText
  | s => s

/-- The text behind blanks, a comment and the line end; the text may also end there. -/
def restOfLine? (s : List Char) : Option (List Char) :=
  match skipComment (skipBlanks s) with
  | [] => some []
  | rest => lineEnd? rest

/-- The text behind blanks, comments and line ends; `fuel` bounds the lines. -/
def skipLines : (fuel : Nat) → List Char → List Char
  | 0, s => s
  | fuel + 1, s =>
    let rest := skipComment (skipBlanks s)
    match lineEnd? rest with
    | some next => skipLines fuel next
    | none => rest

/-! ## Strings -/

/-- The character that four or eight digits stand for. -/
def unicode? (width : Nat) (s : List Char) : Option Char :=
  if (s.take width).length = width then
    (Text.digits? 16 (s.take width)).bind fun n =>
      if n.isValidChar then some (Char.ofNat n) else none
  else none

/-- The character behind a backslash, and how many characters the escape takes after it. -/
def escape? : List Char → Option (Char × Nat)
  | 'b' :: _ => some ('\x08', 1)
  | 't' :: _ => some ('\t', 1)
  | 'n' :: _ => some ('\n', 1)
  | 'f' :: _ => some ('\x0c', 1)
  | 'r' :: _ => some ('\r', 1)
  | '"' :: _ => some ('"', 1)
  | '\\' :: _ => some ('\\', 1)
  | 'u' :: rest => (unicode? 4 rest).map (·, 5)
  | 'U' :: rest => (unicode? 8 rest).map (·, 9)
  | _ => none

/-- A string from behind its quote, and the text behind its closing quote. -/
def basicString? : (fuel : Nat) → List Char → Option (List Char × List Char)
  | 0, _ => none
  | _ + 1, [] => none
  | fuel + 1, c :: s =>
    if c = '"' then some ([], s)
    else if c = '\\' then
      (escape? s).bind fun (d, n) =>
        (basicString? fuel (s.drop n)).map fun (cs, rest) => (d :: cs, rest)
    else if isText c then (basicString? fuel s).map fun (cs, rest) => (c :: cs, rest)
    else none

def literalString? (s : List Char) : Option (List Char × List Char) :=
  match s.dropWhile fun c => isText c && c != '\'' with
  | '\'' :: rest => some (s.takeWhile fun c => isText c && c != '\'', rest)
  | _ => none

/-- The quotes at the end of a string of several lines: up to two belong to it, and three close
it. -/
def closing? (quote : Char) (s : List Char) : Option (List Char × List Char) :=
  let count := (s.takeWhile (· == quote)).length
  if count < 3 then none
  else
    let own := min (count - 3) 2
    some (List.replicate own quote, s.drop (own + 3))

/-- The text behind blanks and line ends. -/
def skipBlankLines : List Char → List Char
  | '\r' :: '\n' :: rest => skipBlankLines rest
  | c :: rest => if isBlank c || c = '\n' then skipBlankLines rest else c :: rest
  | [] => []

/-- What a string goes on with if a backslash ends its line: blanks and blank lines are left out. -/
def joinedLine? (s : List Char) : Option (List Char) :=
  (lineEnd? (skipBlanks s)).map skipBlankLines

/-- A string of several lines from behind its opening quotes. -/
def multilineString? (quote : Char) (escapes : Bool) :
    (fuel : Nat) → List Char → Option (List Char × List Char)
  | 0, _ => none
  | _ + 1, [] => none
  | fuel + 1, c :: s =>
    match closing? quote (c :: s) with
    | some result => some result
    | none =>
      -- a backslash joins lines or escapes a character
      if escapes && c = '\\' then
        match joinedLine? s with
        | some rest => multilineString? quote escapes fuel rest
        | none =>
          (escape? s).bind fun (d, n) =>
            (multilineString? quote escapes fuel (s.drop n)).map fun (cs, rest) =>
              (d :: cs, rest)
      else
        -- both kinds of line ends become one
        match lineEnd? (c :: s) with
        | some rest =>
          (multilineString? quote escapes fuel rest).map fun (cs, rest) => ('\n' :: cs, rest)
        | none =>
          if isText c then
            (multilineString? quote escapes fuel s).map fun (cs, rest) => (c :: cs, rest)
          else none

/-- A line end right behind the opening quotes does not count. -/
def dropFirstLineEnd (s : List Char) : List Char :=
  (lineEnd? s).getD s

/-- A string of any kind. -/
def string? : List Char → Option (List Char × List Char)
  | '"' :: '"' :: '"' :: s => multilineString? '"' true (s.length + 1) (dropFirstLineEnd s)
  | '\'' :: '\'' :: '\'' :: s => multilineString? '\'' false (s.length + 1) (dropFirstLineEnd s)
  | '"' :: s => basicString? (s.length + 1) s
  | '\'' :: s => literalString? s
  | _ => none

/-! ## Keys -/

def isBare (c : Char) : Bool :=
  c.isAlphanum || c == '_' || c == '-'

/-- One part of a key: bare, or a string on one line. -/
def simpleKey? : List Char → Option (String × List Char)
  | '"' :: s => (basicString? (s.length + 1) s).map fun (cs, rest) => (String.ofList cs, rest)
  | '\'' :: s => (literalString? s).map fun (cs, rest) => (String.ofList cs, rest)
  | s =>
    let name := s.takeWhile isBare
    if name.isEmpty then none else some (String.ofList name, s.dropWhile isBare)

/-- A key, with points between its parts and blanks around them. -/
def keyParts? : (fuel : Nat) → List Char → Option (List String × List Char)
  | 0, _ => none
  | fuel + 1, s =>
    (simpleKey? (skipBlanks s)).bind fun (name, rest) =>
      match skipBlanks rest with
      | '.' :: rest => (keyParts? fuel rest).map fun (names, rest) => (name :: names, rest)
      | rest => some ([name], rest)

/-- Values and keys may be nested less deep than this. -/
def depthLimit : Nat := 80

/-- The path of a key, its last part, and the text behind it. -/
def key? (s : List Char) : Option (List String × String × List Char) :=
  (keyParts? depthLimit s).bind fun (names, rest) =>
    if names.length < depthLimit then names.getLast?.map fun last => (names.dropLast, last, rest)
    else none

/-! ## Numbers -/

/-- The digits of a number without the underscores, of which each must stand between two. -/
def separated? (isDigit : Char → Bool) : List Char → Option (List Char)
  | [] => none
  | [c] => if isDigit c then some [c] else none
  | c :: '_' :: rest =>
    if isDigit c then (separated? isDigit rest).map (c :: ·) else none
  | c :: rest => if isDigit c then (separated? isDigit rest).map (c :: ·) else none

/-- Decimal digits of which the first is not zero, unless it is the only one. -/
def decimalDigits? (s : List Char) : Option (List Char) :=
  (separated? Char.isDigit s).bind fun digits =>
    if 1 < digits.length && digits.head? = some '0' then none else some digits

def unsign (s : List Char) : Bool × List Char :=
  match s with
  | '-' :: rest => (true, rest)
  | '+' :: rest => (false, rest)
  | _ => (false, s)

def inRange? (n : Int) : Option Int :=
  if fitsInt64 n then some n else none

def basedInteger? (base : Nat) (s : List Char) : Option Int :=
  (separated? (fun c => (Text.digit? base c).isSome) s).bind fun digits =>
    (Text.digits? base digits).bind fun n => inRange? n

def integer? (s : List Char) : Option Int :=
  match s with
  | '0' :: 'x' :: rest => basedInteger? 16 rest
  | '0' :: 'o' :: rest => basedInteger? 8 rest
  | '0' :: 'b' :: rest => basedInteger? 2 rest
  | _ =>
    let (negative, digits) := unsign s
    (decimalDigits? digits).bind fun digits =>
      let n : Int := Nat.ofDigitChars 10 digits 0
      inRange? (if negative then -n else n)

/-- The fraction of a number from its point on; there may be none. -/
def fraction? : List Char → Option (List Char)
  | [] => some []
  | _ :: digits => separated? Char.isDigit digits

/-- The exponent of a number from its letter on; without one it is zero. -/
def exponent? : List Char → Option Int
  | [] => some 0
  | _ :: e =>
    let (negative, digits) := unsign e
    (separated? Char.isDigit digits).map fun digits =>
      let n : Int := Nat.ofDigitChars 10 digits 0
      if negative then -n else n

/-- A number with a fraction, an exponent or both. One too large is refused if it is positive. -/
def fractional? (s : List Char) : Option Float :=
  let (negative, magnitude) := unsign s
  let mantissa := magnitude.takeWhile fun c => c != 'e' && c != 'E'
  let whole := mantissa.takeWhile (· != '.')
  -- digits alone are a whole number
  if whole = magnitude then none
  else do
    let whole ← decimalDigits? whole
    let fraction ← fraction? (mantissa.dropWhile (· != '.'))
    let exponent ← exponent? (magnitude.dropWhile fun c => c != 'e' && c != 'E')
    let x := Decimal.nearest (Nat.ofDigitChars 10 (whole ++ fraction) 0)
      (exponent - fraction.length)
    if negative then some (-x) else if x.isInf then none else some x

def float? (s : List Char) : Option Float :=
  let (negative, word) := unsign s
  let signed (x : Float) : Option Float := some (if negative then -x else x)
  if word = ['i', 'n', 'f'] then signed (Float.ofBits 0x7ff0000000000000)
  else if word = ['n', 'a', 'n'] then signed (Float.ofBits 0x7ff8000000000000)
  else fractional? s

/-! ## Dates and times -/

/-- A number of exactly `width` digits. -/
def fixed? (width : Nat) (s : List Char) : Option (Nat × List Char) :=
  if (s.take width).length = width && (s.take width).all Char.isDigit then
    some (Nat.ofDigitChars 10 (s.take width) 0, s.drop width)
  else none

/-- The text behind a character. -/
def expect? (c : Char) : List Char → Option (List Char)
  | d :: rest => if c = d then some rest else none
  | [] => none

def daysIn (year month : Nat) : Nat :=
  if month = 2 then
    if year % 4 = 0 && (year % 100 ≠ 0 || year % 400 = 0) then 29 else 28
  else if month = 4 || month = 6 || month = 9 || month = 11 then 30
  else 31

/-- The text behind a date. -/
def afterDate? (s : List Char) : Option (List Char) := do
  let (year, s) ← fixed? 4 s
  let (month, s) ← fixed? 2 (← expect? '-' s)
  let (day, s) ← fixed? 2 (← expect? '-' s)
  if 1 ≤ month && month ≤ 12 && 1 ≤ day && day ≤ daysIn year month then some s else none

/-- The text behind hours and minutes. -/
def afterHourMinute? (s : List Char) : Option (List Char) := do
  let (hour, s) ← fixed? 2 s
  let (minute, s) ← fixed? 2 (← expect? ':' s)
  if hour ≤ 23 && minute ≤ 59 then some s else none

/-- The text behind a time of day. -/
def afterTime? (s : List Char) : Option (List Char) := do
  let s ← afterHourMinute? s
  let (second, s) ← fixed? 2 (← expect? ':' s)
  -- a leap second is a second too
  if 60 < second then none
  else
    match s with
    | '.' :: rest =>
      if rest.head?.any Char.isDigit then some (rest.dropWhile Char.isDigit) else none
    | s => some s

/-- Nothing, or the offset of a time from universal time. -/
def isOffset (s : List Char) : Bool :=
  match s with
  | [] => true
  | c :: rest =>
    ((c = 'Z' || c = 'z') && rest.isEmpty)
      || ((c = '+' || c = '-') && afterHourMinute? rest == some [])

/-- A date, a time of day, or both, then perhaps with an offset. -/
def isMoment (s : List Char) : Bool :=
  match afterDate? s with
  | some [] => true
  | some (c :: time) =>
    (c = 'T' || c = 't' || c = ' ') && ((afterTime? time).map isOffset).getD false
  | none => afterTime? s == some []

/-! ## Scalars without quotes -/

/-- The characters of scalars without quotes. -/
def isScalarChar (c : Char) : Bool :=
  isBare c || c == '+' || c == '.' || c == ':'

/-- A scalar without quotes. A date may be followed by a blank and a time. -/
def scalarText (s : List Char) : List Char × List Char :=
  let word := s.takeWhile isScalarChar
  let rest := s.dropWhile isScalarChar
  match rest with
  | ' ' :: a :: b :: ':' :: _ =>
    if afterDate? word == some [] && a.isDigit && b.isDigit then
      (word ++ ' ' :: (rest.drop 1).takeWhile isScalarChar, (rest.drop 1).dropWhile isScalarChar)
    else (word, rest)
  | _ => (word, rest)

def scalar? (s : List Char) : Option (Toml × List Char) :=
  let (word, rest) := scalarText s
  let value :=
    if word = ['t', 'r', 'u', 'e'] then some (.bool true)
    else if word = ['f', 'a', 'l', 's', 'e'] then some (.bool false)
    else if isMoment word then some (.moment (String.ofList word))
    else (integer? word).map Toml.integer <|> (float? word).map Toml.float
  value.map (·, rest)

end DocGraph.Toml
