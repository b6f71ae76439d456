import DocGraph.Decimal.Shortest

/-!
# DocGraph: how a number is laid out

A layout is a record of choices: where positional writing ends, whether a whole number shows its
point, how an exponent is written, and the words for what is not finite. The three formats of
the library (JSON, YAML, plain text) are three such records.
-/

namespace DocGraph.Decimal

/-- The choices left open by the digits of a number. -/
structure Layout where
  tie : Tie
  /-- The least and the greatest decimal exponent written positionally; `none` is no limit. -/
  positional : Option (Int × Int)
  /-- A whole number written positionally ends in a point and a zero. -/
  pointed : Bool
  /-- The exponent is written with a sign also when it is not negative. -/
  plus : Bool
  nan : String
  infinity : String

/-- Writes the decimal digits of a positive number with the point where `exponent` puts it. -/
def Digits.positional (d : Digits) (pointed : Bool) : String :=
  let digits := Nat.toDigits 10 d.digits
  if 0 ≤ d.exponent then
    String.ofList (digits ++ List.replicate d.exponent.toNat '0') ++ if pointed then ".0" else ""
  else
    -- the point goes among the digits, behind zeros if there are too few
    let places := (-d.exponent).toNat
    let padded := List.replicate (places + 1 - digits.length) '0' ++ digits
    let whole := padded.length - places
    String.ofList (padded.take whole ++ '.' :: padded.drop whole)

/-- Writes one digit, the others behind a point, and the exponent. -/
def Digits.scientific (d : Digits) (plus : Bool) : String :=
  let digits := Nat.toDigits 10 d.digits
  let exponent := d.exponent + digits.length - 1
  let mantissa := match digits with
    | [] => []
    | [c] => [c]
    | c :: rest => c :: '.' :: rest
  let sign := if exponent < 0 then "-" else if plus then "+" else ""
  String.ofList mantissa ++ "e" ++ sign ++ toString exponent.natAbs

/-- Writes a number; zero is positional in every layout. -/
def Layout.digits (l : Layout) (d : Digits) : String :=
  let exponent := d.exponent + (Nat.toDigits 10 d.digits).length - 1
  match l.positional with
  | none => d.positional l.pointed
  | some (least, greatest) =>
    if least ≤ exponent && exponent ≤ greatest then d.positional l.pointed
    else d.scientific l.plus

def Layout.float (l : Layout) (x : Float) : String :=
  match Datum.ofFloat x with
  | .nan => l.nan
  | .infinite negative => (if negative then "-" else "") ++ l.infinity
  | .finite b => (if b.negative then "-" else "") ++ l.digits (shortest l.tie b)

/-- Plain text: never an exponent, no point in a whole number. -/
def plain : Layout where
  tie := .upward
  positional := none
  pointed := false
  plus := false
  nan := "NaN"
  infinity := "inf"

end DocGraph.Decimal
