import DocGraph.Decimal.Binary

/-!
# DocGraph: the fewest decimal digits that read back

Every real number strictly between the two midpoints around a double reads back as that double;
the midpoints themselves do so when the significand is even, for reading rounds ties to even. The
shortest text is the one on the coarsest decimal grid that meets this interval, and of the two
grid points beside the value the nearer one is taken. The search runs from coarse to fine.
-/

namespace DocGraph.Decimal

/-- Which way a value goes that lies halfway between two candidates. -/
inductive Tie where
  | toEven
  | upward
deriving DecidableEq

/-- The decimal number `digits * 10 ^ exponent`. -/
structure Digits where
  digits : Nat
  exponent : Int
deriving DecidableEq

/-- The same number without zeros at the end of its digits. -/
def Digits.strip (d : Digits) : Digits :=
  go d.digits d.digits d.exponent
where
  go : Nat → Nat → Int → Digits
    | 0, n, e => ⟨n, e⟩
    | fuel + 1, n, e => if n ≠ 0 && n % 10 = 0 then go fuel (n / 10) (e + 1) else ⟨n, e⟩

/-- The reals that read back as a value: from `low` to `high` around `value`, all three over the
denominator `unit`. -/
structure Interval where
  low : Nat
  value : Nat
  high : Nat
  unit : Nat
  /-- The two ends belong to the interval. -/
  closed : Bool

def Interval.ofBinary (b : Binary) : Interval :=
  let below := if b.narrowBelow then 1 else 2
  let scale := Nat.pow 2 (b.exponent - 2).toNat
  { low := (4 * b.significand - below) * scale
    value := 4 * b.significand * scale
    high := (4 * b.significand + 2) * scale
    unit := Nat.pow 2 (2 - b.exponent).toNat
    closed := b.significand % 2 = 0 }

def Interval.holds (i : Interval) (numerator denominator : Nat) : Bool :=
  let point := numerator * i.unit
  if i.closed then i.low * denominator ≤ point && point ≤ i.high * denominator
  else i.low * denominator < point && point < i.high * denominator

/-- The point of the grid `10 ^ exponent` that reads back, the nearer one if there are two. -/
def Interval.onGrid? (i : Interval) (tie : Tie) (exponent : Int) : Option Nat :=
  let up := Nat.pow 10 exponent.toNat
  let down := Nat.pow 10 (-exponent).toNat
  let floor := i.value * down / (i.unit * up)
  let rest := i.value * down % (i.unit * up)
  let floorHolds := i.holds (floor * up) down
  let nextHolds := i.holds ((floor + 1) * up) down
  if floorHolds && nextHolds then
    -- two points read back: the nearer one, or as the tie says
    let twice := 2 * rest
    if twice < i.unit * up then some floor
    else if i.unit * up < twice then some (floor + 1)
    else match tie with
      | .upward => some (floor + 1)
      | .toEven => some (if floor % 2 = 0 then floor else floor + 1)
  else if floorHolds then some floor
  else if nextHolds then some (floor + 1)
  else none

/-- Tries `fuel` grids, each ten times finer than the one before. -/
def Interval.search (i : Interval) (tie : Tie) : (fuel : Nat) → (exponent : Int) → Digits
  | 0, e => ⟨i.value * Nat.pow 10 (-e).toNat / (i.unit * Nat.pow 10 e.toNat), e⟩
  | fuel + 1, e =>
    match i.onGrid? tie e with
    | some d => ⟨d, e⟩
    | none => i.search tie fuel (e - 1)

/-- The shortest decimal number that reads back as the value. The first grid lies above it, as
`2 ^ 93` is below `10 ^ 28`; seventeen digits always suffice. -/
def shortest (tie : Tie) (b : Binary) : Digits :=
  if b.significand = 0 then ⟨0, 0⟩
  else
    let bits := (b.significand.log2 : Int) + 1 + b.exponent
    ((Interval.ofBinary b).search tie 24 (bits * 28 / 93 + 2)).strip

end DocGraph.Decimal
