import DocGraph.Number

/-!
# DocGraph: numbers as documents write them

A document holds whole numbers from `-2 ^ 63` to `2 ^ 64 - 1` and doubles. In a graph a whole
number keeps its digits if it fits 64 signed bits, and becomes the nearest double otherwise.
-/

namespace DocGraph

inductive Numeral where
  | integer (n : Int)
  | float (x : Float)

/-- The whole numbers that fit 64 signed bits. -/
def fitsInt64 (n : Int) : Bool :=
  Int64.minValue.toInt ≤ n && n ≤ Int64.maxValue.toInt

def Number.ofNumeral : Numeral → Number
  | .integer n => if fitsInt64 n then .integer (Int64.ofInt n) else .float (Float.ofInt n)
  | .float x => .float x

end DocGraph
