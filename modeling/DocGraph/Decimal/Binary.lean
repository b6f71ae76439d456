/-!
# DocGraph: floating point numbers as exact integers

A finite double is a sign, a whole significand and a power of two. All decimal text is made from
this view, in exact arithmetic.
-/

namespace DocGraph.Decimal

/-- The number `significand * 2 ^ exponent`, negated when `negative`. -/
structure Binary where
  negative : Bool
  significand : Nat
  exponent : Int
  /-- The next double toward zero is only half as far away as the next one away from zero. -/
  narrowBelow : Bool

/-- What a double stands for. -/
inductive Datum where
  | nan
  | infinite (negative : Bool)
  | finite (value : Binary)

def Datum.ofFloat (x : Float) : Datum :=
  let bits := x.toBits.toNat
  let negative := bits.testBit 63
  let biased : Nat := bits / Nat.pow 2 52 % Nat.pow 2 11
  let fraction : Nat := bits % Nat.pow 2 52
  if biased = 2047 then
    if fraction = 0 then .infinite negative else .nan
  else if biased = 0 then
    -- subnormal: no hidden bit
    .finite ⟨negative, fraction, -1074, false⟩
  else
    -- the hidden bit counts; at a power of two the doubles below lie closer
    .finite ⟨negative, Nat.pow 2 52 + fraction, (biased : Int) - 1075, fraction = 0 && 1 < biased⟩

end DocGraph.Decimal
