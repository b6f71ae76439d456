/-!
# DocGraph: decimal text to floating point

The double nearest to `digits * 10 ^ exponent`, ties to even. Exponents far outside the range of
a double are decided without computing the power.
-/

namespace DocGraph.Decimal

/-- The nearest double; a number too large is infinite. -/
def nearest (digits : Nat) (exponent : Int) : Float :=
  let size := (Nat.toDigits 10 digits).length + exponent
  if digits = 0 || size < -400 then Float.ofNat 0
  else if 400 < size then Float.ofBits 0x7ff0000000000000
  else Float.ofScientific digits (exponent < 0) exponent.natAbs

/-- Reads an optional sign and digits. -/
def integer? (s : List Char) : Option Int :=
  let (negative, digits) := match s with
    | '-' :: rest => (true, rest)
    | '+' :: rest => (false, rest)
    | _ => (false, s)
  if digits.isEmpty || !digits.all Char.isDigit then none
  else
    let n : Int := Nat.ofDigitChars 10 digits 0
    some (if negative then -n else n)

/-- Reads digits with an optional point among or beside them and an optional exponent. -/
def unsigned? (s : List Char) : Option Float :=
  let whole := s.takeWhile Char.isDigit
  let (fraction, rest) := match s.dropWhile Char.isDigit with
    | '.' :: rest => (rest.takeWhile Char.isDigit, rest.dropWhile Char.isDigit)
    | rest => ([], rest)
  let exponent? := match rest with
    | [] => some 0
    | c :: rest => if c = 'e' || c = 'E' then integer? rest else none
  if whole.isEmpty && fraction.isEmpty then none
  else
    exponent?.map fun exponent =>
      nearest (Nat.ofDigitChars 10 (whole ++ fraction) 0) (exponent - fraction.length)

/-- Reads a number with an optional sign. -/
def parse? : List Char → Option Float
  | '-' :: rest => (unsigned? rest).map fun x => -x
  | '+' :: rest => unsigned? rest
  | s => unsigned? s

end DocGraph.Decimal
