import DocGraph.Decimal.Layout

/-!
# DocGraph: numbers

A number is a 64-bit integer or a double. Equality is by value across the two: two integers are
compared exactly, and as soon as one side is a double both are compared as doubles.
-/

namespace DocGraph

inductive Number where
  | integer (value : Int64)
  | float (value : Float)

namespace Number

/-- The nearest double, ties to even. -/
def toFloat : Number → Float
  | .integer i => Float.ofInt i.toInt
  | .float x => x

def isInteger : Number → Bool
  | .integer _ => true
  | .float _ => false

/-- Equality by value; a NaN differs from every number. -/
def eqv : Number → Number → Bool
  | .integer a, .integer b => a == b
  | a, b => a.toFloat == b.toFloat

instance : BEq Number := ⟨eqv⟩

/-- The text shown to a reader: the shortest digits, never an exponent. -/
def text : Number → String
  | .integer i => toString i.toInt
  | .float x => Decimal.plain.float x

end Number

end DocGraph
