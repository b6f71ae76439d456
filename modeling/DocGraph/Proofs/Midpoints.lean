import DocGraph.Decimal.Shortest
import Mathlib

/-!
# DocGraph: a double is known by the digits found for it

The digits found for a double stand for a number between the midpoints to its neighbours, and on a
midpoint only if its significand is even. No other double has this number between its midpoints:
neighbours share a midpoint, and one of two neighbours has an odd significand. So different doubles
have different digits.

That there are digits at all is a matter of counting. The grids tried get finer by a factor of ten,
and on one that is finer than half the distance to the next double, the first point above the value
lies below the midpoint. The last grid is that fine, whatever the double.

* `holds_iff`: what the test of a point says in terms of the midpoints.
* `readsBack_search`: the search finds a point that passes, by induction on the grids.
* `ten_zpow_lt`: the last grid is fine enough.
* `readsBack_shortest`: the two together.
* `eq_of_readsBack`: a number lies between the midpoints of one double only.
-/

namespace DocGraph.Decimal

/-- The number that digits stand for. -/
def Digits.value (d : Digits) : ℚ :=
  d.digits * 10 ^ d.exponent

theorem Digits.value_strip (d : Digits) : d.strip.value = d.value := by
  have hGo : ∀ fuel n e, (strip.go fuel n e).value = (⟨n, e⟩ : Digits).value := by
    intro fuel
    induction fuel with
    | zero => exact fun n e => rfl
    | succ fuel ih =>
      intro n e
      rw [strip.go]
      split
      · rename_i hZero
        simp only [ne_eq, decide_not, Bool.and_eq_true, Bool.not_eq_eq_eq_not, Bool.not_true,
          decide_eq_false_iff_not, decide_eq_true_eq] at hZero
        have hTen : n = 10 * (n / 10) := by omega
        rw [ih, value, value, zpow_add_one₀ (by norm_num)]
        conv_rhs => rw [hTen]
        push_cast
        ring
      · rfl
  exact hGo _ _ _

/-! ## Midpoints -/

namespace Binary

/-- A quarter of the distance to the next double away from zero. -/
def quarter (b : Binary) : ℚ :=
  2 ^ (b.exponent - 2)

/-- How many quarters the midpoint towards zero lies below the value. -/
def below (b : Binary) : Nat :=
  if b.narrowBelow then 1 else 2

def low (b : Binary) : ℚ :=
  (4 * b.significand - b.below : ℕ) * b.quarter

def high (b : Binary) : ℚ :=
  (4 * b.significand + 2 : ℕ) * b.quarter

/-- The number lies between the midpoints around a value, or on one of them if the significand is
even: reading rounds it to the value. -/
def ReadsBack (b : Binary) (q : ℚ) : Prop :=
  if b.significand % 2 = 0 then b.low ≤ q ∧ q ≤ b.high else b.low < q ∧ q < b.high

/-- The value itself. -/
def value (b : Binary) : ℚ :=
  (4 * b.significand : ℕ) * b.quarter

theorem quarter_pos (b : Binary) : 0 < b.quarter :=
  zpow_pos (by norm_num) _

theorem below_eq (b : Binary) :
    b.narrowBelow = true ∧ b.below = 1 ∨ b.narrowBelow ≠ true ∧ b.below = 2 := by
  rw [below]
  split
  · exact .inl ⟨‹_›, rfl⟩
  · exact .inr ⟨‹_›, rfl⟩

theorem low_lt_value {b : Binary} (hPos : 0 < b.significand) : b.low < b.value := by
  refine mul_lt_mul_of_pos_right (Nat.cast_lt.2 ?_) b.quarter_pos
  have := b.below_eq
  omega

theorem high_eq (b : Binary) : b.high = b.value + 2 * b.quarter := by
  rw [high, value]
  push_cast
  ring

theorem ReadsBack.of_lt {b : Binary} {q : ℚ} (hLow : b.low < q) (hHigh : q < b.high) :
    b.ReadsBack q := by
  rw [ReadsBack]
  split
  · exact ⟨hLow.le, hHigh.le⟩
  · exact ⟨hLow, hHigh⟩

theorem ReadsBack.bounds {b : Binary} {q : ℚ} (hq : b.ReadsBack q) : b.low ≤ q ∧ q ≤ b.high := by
  rw [ReadsBack] at hq
  split at hq
  · exact hq
  · exact ⟨hq.1.le, hq.2.le⟩

theorem ReadsBack.even {b : Binary} {q : ℚ} (hq : b.ReadsBack q) (hEnd : q = b.low ∨ q = b.high) :
    b.significand % 2 = 0 := by
  rw [ReadsBack] at hq
  split at hq
  · assumption
  · rcases hEnd with rfl | rfl
    · exact absurd hq.1 (lt_irrefl _)
    · exact absurd hq.2 (lt_irrefl _)

end Binary

/-- Powers with whole exponents, split into numerator and denominator. -/
theorem pow_toNat_eq {x : ℚ} (hx : x ≠ 0) (n : Int) :
    x ^ n.toNat = x ^ n * x ^ (-n).toNat := by
  rw [← zpow_natCast, ← zpow_natCast, ← zpow_add₀ hx]
  congr 1
  omega

theorem two_pow_toNat_eq (b : Binary) :
    (2 : ℚ) ^ (b.exponent - 2).toNat = b.quarter * 2 ^ (2 - b.exponent).toNat := by
  rw [pow_toNat_eq (by norm_num), Binary.quarter, Int.neg_sub]

/-- The test of a point compares it with the two midpoints, over a common denominator. -/
theorem holds_iff (b : Binary) {numerator denominator : Nat} (hDen : 0 < denominator) {q : ℚ}
    (hq : (numerator : ℚ) = q * denominator) :
    (Interval.ofBinary b).holds numerator denominator = true ↔ b.ReadsBack q := by
  have hFactor : (0 : ℚ) < 2 ^ (2 - b.exponent).toNat * denominator := by positivity
  have hEnd : ∀ m : Nat, ((m * 2 ^ (b.exponent - 2).toNat * denominator : ℕ) : ℚ) =
      m * b.quarter * (2 ^ (2 - b.exponent).toNat * denominator) := by
    intro m
    push_cast
    rw [two_pow_toNat_eq]
    ring
  have hPoint : ((numerator * 2 ^ (2 - b.exponent).toNat : ℕ) : ℚ) =
      q * (2 ^ (2 - b.exponent).toNat * denominator) := by
    push_cast
    rw [hq]
    ring
  have hLe : ∀ m : Nat, m * 2 ^ (b.exponent - 2).toNat * denominator ≤
      numerator * 2 ^ (2 - b.exponent).toNat ↔ m * b.quarter ≤ q := by
    intro m
    rw [← Nat.cast_le (α := ℚ), hEnd, hPoint]
    exact mul_le_mul_iff_left₀ hFactor
  have hGe : ∀ m : Nat, numerator * 2 ^ (2 - b.exponent).toNat ≤
      m * 2 ^ (b.exponent - 2).toNat * denominator ↔ q ≤ m * b.quarter := by
    intro m
    rw [← Nat.cast_le (α := ℚ), hEnd, hPoint]
    exact mul_le_mul_iff_left₀ hFactor
  have hLow : (Interval.ofBinary b).low * denominator ≤ numerator * (Interval.ofBinary b).unit ↔
      b.low ≤ q := hLe _
  have hHigh : numerator * (Interval.ofBinary b).unit ≤ (Interval.ofBinary b).high * denominator ↔
      q ≤ b.high := hGe _
  have hAbove : numerator * (Interval.ofBinary b).unit ≤ (Interval.ofBinary b).low * denominator ↔
      q ≤ b.low := hGe _
  have hUnder : (Interval.ofBinary b).high * denominator ≤ numerator * (Interval.ofBinary b).unit ↔
      b.high ≤ q := hLe _
  by_cases hEven : b.significand % 2 = 0
  · have hClosed : (Interval.ofBinary b).closed = true := decide_eq_true hEven
    rw [Binary.ReadsBack, if_pos hEven, Interval.holds, if_pos hClosed, Bool.and_eq_true,
      decide_eq_true_eq, decide_eq_true_eq, hLow, hHigh]
  · have hOpen : ¬ (Interval.ofBinary b).closed = true := fun hClosed =>
      hEven (of_decide_eq_true hClosed)
    rw [Binary.ReadsBack, if_neg hEven, Interval.holds, if_neg hOpen, Bool.and_eq_true,
      decide_eq_true_eq, decide_eq_true_eq, ← not_le, ← not_le, hAbove, hUnder, not_le, not_le]

/-! ## Grids -/

section Grids

variable {b : Binary} {tie : Tie} {exponent : Int}

/-- The test of a point of a grid. -/
theorem holds_grid_iff (b : Binary) (n : Nat) (exponent : Int) :
    (Interval.ofBinary b).holds (n * Nat.pow 10 exponent.toNat) (Nat.pow 10 (-exponent).toNat) =
      true ↔ b.ReadsBack (n * 10 ^ exponent) := by
  refine holds_iff b (Nat.pow_pos (by norm_num)) ?_
  simp only [Nat.pow_eq]
  push_cast
  rw [pow_toNat_eq (by norm_num)]
  ring

/-- A point that is found on a grid reads back. -/
theorem readsBack_onGrid? {n : Nat} (hPoint : (Interval.ofBinary b).onGrid? tie exponent = some n) :
    b.ReadsBack (n * 10 ^ exponent) := by
  rw [← holds_grid_iff]
  simp only [Interval.onGrid?] at hPoint
  split at hPoint
  · rename_i hBoth
    rw [Bool.and_eq_true] at hBoth
    -- whichever of the two is chosen, both read back
    cases tie <;> (simp only at hPoint; split_ifs at hPoint <;> cases hPoint) <;>
      first | exact hBoth.1 | exact hBoth.2
  · split_ifs at hPoint with hFloor hNext
    · cases hPoint
      exact hFloor
    · cases hPoint
      exact hNext

/-- The point found below the value and the next one have the value between them. -/
theorem floor_bounds (b : Binary) (exponent : Int) {floor : Nat}
    (hFloor : (Interval.ofBinary b).value * Nat.pow 10 (-exponent).toNat /
      ((Interval.ofBinary b).unit * Nat.pow 10 exponent.toNat) = floor) :
    floor * 10 ^ exponent ≤ b.value ∧ b.value < (floor + 1 : ℕ) * 10 ^ exponent := by
  have hFactor : (0 : ℚ) < 2 ^ (2 - b.exponent).toNat * 10 ^ (-exponent).toNat := by positivity
  have hValue : (((Interval.ofBinary b).value * Nat.pow 10 (-exponent).toNat : ℕ) : ℚ) =
      b.value * (2 ^ (2 - b.exponent).toNat * 10 ^ (-exponent).toNat) := by
    simp only [Interval.ofBinary, Nat.pow_eq, Binary.value]
    push_cast
    rw [two_pow_toNat_eq]
    ring
  have hPoint : ∀ n : Nat,
      ((n * ((Interval.ofBinary b).unit * Nat.pow 10 exponent.toNat) : ℕ) : ℚ) =
        n * 10 ^ exponent * (2 ^ (2 - b.exponent).toNat * 10 ^ (-exponent).toNat) := by
    intro n
    simp only [Interval.ofBinary, Nat.pow_eq]
    push_cast
    rw [pow_toNat_eq (by norm_num) exponent]
    ring
  have hUnit : 0 < (Interval.ofBinary b).unit * Nat.pow 10 exponent.toNat :=
    Nat.mul_pos (Nat.pow_pos (by norm_num)) (Nat.pow_pos (by norm_num))
  constructor
  · have hLe := (Nat.le_div_iff_mul_le hUnit).1 hFloor.ge
    rw [← Nat.cast_le (α := ℚ), hValue, hPoint] at hLe
    exact (mul_le_mul_iff_left₀ hFactor).1 hLe
  · have hLt := (Nat.div_lt_iff_lt_mul hUnit).1 (Nat.lt_succ_of_le hFloor.le)
    rw [← Nat.cast_lt (α := ℚ), hValue, hPoint] at hLt
    exact (mul_lt_mul_iff_left₀ hFactor).1 hLt

/-- On a grid finer than half the distance to the next double, the first point above the value reads
back. -/
theorem onGrid?_ne_none (hPos : 0 < b.significand) (hFine : (10 : ℚ) ^ exponent < 2 * b.quarter) :
    (Interval.ofBinary b).onGrid? tie exponent ≠ none := by
  obtain ⟨floor, hFloor⟩ : ∃ floor, (Interval.ofBinary b).value * Nat.pow 10 (-exponent).toNat /
      ((Interval.ofBinary b).unit * Nat.pow 10 exponent.toNat) = floor := ⟨_, rfl⟩
  obtain ⟨hBelow, hAbove⟩ := floor_bounds b exponent hFloor
  have hNext : (Interval.ofBinary b).holds ((floor + 1) * Nat.pow 10 exponent.toNat)
      (Nat.pow 10 (-exponent).toNat) = true := by
    rw [holds_grid_iff]
    refine .of_lt ((Binary.low_lt_value hPos).trans hAbove) ?_
    calc ((floor + 1 : ℕ) : ℚ) * 10 ^ exponent = floor * 10 ^ exponent + 10 ^ exponent := by
          push_cast
          ring
      _ < b.value + 2 * b.quarter := add_lt_add_of_le_of_lt hBelow hFine
      _ = b.high := b.high_eq.symm
  simp only [Interval.onGrid?, hFloor, hNext, Bool.and_true]
  cases tie <;> split_ifs <;> simp_all

/-- A search that gets to a grid so fine finds digits that read back. -/
theorem readsBack_search (hPos : 0 < b.significand) (fuel : Nat)
    (hFine : (10 : ℚ) ^ (exponent - fuel) < 2 * b.quarter) :
    b.ReadsBack ((Interval.ofBinary b).search tie (fuel + 1) exponent).value := by
  induction fuel generalizing exponent with
  | zero =>
    rw [Interval.search]
    cases hPoint : (Interval.ofBinary b).onGrid? tie exponent with
    | none =>
      rw [Nat.cast_zero, sub_zero] at hFine
      exact absurd hPoint (onGrid?_ne_none hPos hFine)
    | some n => exact readsBack_onGrid? hPoint
  | succ fuel ih =>
    rw [Interval.search]
    cases hPoint : (Interval.ofBinary b).onGrid? tie exponent with
    | none =>
      refine ih ?_
      have hExponent : exponent - 1 - (fuel : Int) = exponent - ((fuel + 1 : ℕ) : Int) := by
        push_cast
        ring
      rw [hExponent]
      exact hFine
    | some n => exact readsBack_onGrid? hPoint

end Grids

/-- The last grid, as far as it depends on the number of bits, is finer than the 55th bit. -/
theorem ten_zpow_lt {bits : Int} (hBits : bits ≤ 1024) :
    (10 : ℚ) ^ (bits * 28 / 93 - 21) < 2 ^ (bits - 54) := by
  obtain ⟨q, hq⟩ : ∃ q, bits * 28 / 93 = q := ⟨_, rfl⟩
  have hFloor : q * 93 ≤ bits * 28 := by omega
  -- in 93rd powers: `10 ^ 28` lies between `2 ^ 93` and `2 ^ 94`
  have hGrid : (10 : ℚ) ^ q ≤ 2 ^ (bits + 12) := by
    refine (pow_le_pow_iff_left₀ (by positivity) (by positivity) (by norm_num : 93 ≠ 0)).1 ?_
    rw [← zpow_natCast, ← zpow_natCast, ← zpow_mul, ← zpow_mul]
    have hTen : (10 : ℚ) ^ (q * (93 : ℕ)) ≤ 10 ^ (28 * bits) :=
      zpow_le_zpow_right₀ (by norm_num) (by push_cast; omega)
    refine hTen.trans ?_
    rw [zpow_mul]
    rcases le_total 0 bits with hPos | hNeg
    · have hBase : ((10 : ℚ) ^ (28 : ℤ)) ^ bits ≤ ((2 : ℚ) ^ (94 : ℤ)) ^ bits :=
        zpow_le_zpow_left₀ hPos (by positivity) (by norm_num)
      refine hBase.trans ?_
      rw [← zpow_mul]
      exact zpow_le_zpow_right₀ (by norm_num) (by push_cast; omega)
    · have hBase : ((10 : ℚ) ^ (28 : ℤ)) ^ bits ≤ ((2 : ℚ) ^ (93 : ℤ)) ^ bits := by
        have hInverse : ((2 : ℚ) ^ (93 : ℤ)) ^ (-bits) ≤ ((10 : ℚ) ^ (28 : ℤ)) ^ (-bits) :=
          zpow_le_zpow_left₀ (by omega) (by positivity) (by norm_num)
        rw [zpow_neg, zpow_neg] at hInverse
        exact (inv_le_inv₀ (by positivity) (by positivity)).1 hInverse
      refine hBase.trans ?_
      rw [← zpow_mul]
      exact zpow_le_zpow_right₀ (by norm_num) (by push_cast; omega)
  calc (10 : ℚ) ^ (bits * 28 / 93 - 21) = 10 ^ q * 10 ^ (-21 : ℤ) := by
        rw [hq, sub_eq_add_neg, zpow_add₀ (by norm_num)]
    _ ≤ 2 ^ (bits + 12) * 10 ^ (-21 : ℤ) := by gcongr
    _ < 2 ^ (bits + 12) * 2 ^ (-66 : ℤ) := by gcongr; norm_num
    _ = 2 ^ (bits - 54) := by
        rw [← zpow_add₀ (by norm_num)]
        congr 1
        ring

/-! ## Doubles -/

/-- What a double that is a number other than zero is made of. -/
structure Binary.Regular (b : Binary) : Prop where
  pos : 0 < b.significand
  lt : b.significand < 2 ^ 53
  exponent_ge : -1074 ≤ b.exponent
  exponent_le : b.exponent ≤ 971
  /-- Only the smallest doubles do not use all bits. -/
  full : -1074 < b.exponent → 2 ^ 52 ≤ b.significand
  narrow_iff : b.narrowBelow = true ↔ b.significand = 2 ^ 52 ∧ -1074 < b.exponent

theorem readsBack_shortest {b : Binary} (hb : b.Regular) (tie : Tie) :
    b.ReadsBack (shortest tie b).value := by
  have hLog : b.significand.log2 < 53 := (Nat.log2_lt hb.pos.ne').2 hb.lt
  have hExponent := hb.exponent_le
  rw [shortest, if_neg hb.pos.ne', Digits.value_strip]
  refine readsBack_search hb.pos 23 ?_
  obtain ⟨bits, hBits⟩ : ∃ bits, (b.significand.log2 : Int) + 1 + b.exponent = bits := ⟨_, rfl⟩
  calc (10 : ℚ) ^ (((b.significand.log2 : Int) + 1 + b.exponent) * 28 / 93 + 2 - (23 : ℕ))
      = 10 ^ (bits * 28 / 93 - 21) := by
        rw [hBits]
        congr 1
        push_cast
        ring
    _ < 2 ^ (bits - 54) := ten_zpow_lt (by omega)
    _ ≤ 2 ^ (b.exponent - 1) := zpow_le_zpow_right₀ (by norm_num) (by omega)
    _ = 2 * b.quarter := by
        rw [Binary.quarter, ← zpow_one_add₀ (by norm_num)]
        congr 1
        ring

/-- The midpoints of a double lie above zero. -/
theorem Binary.ReadsBack.pos {b : Binary} {q : ℚ} (hq : b.ReadsBack q) (hPos : 0 < b.significand) :
    0 < q := by
  refine lt_of_lt_of_le (mul_pos (Nat.cast_pos.2 ?_) b.quarter_pos) hq.bounds.1
  have := b.below_eq
  omega

/-- In quarters of the finer one of two doubles, the coarser one's lower midpoint is not above the
finer one's upper midpoint, if some number reads back as both. -/
theorem low_le_high {b c : Binary} {q : ℚ} (hb : b.ReadsBack q) (hc : c.ReadsBack q) {k : Nat}
    (hk : c.exponent = b.exponent + k) :
    (4 * c.significand - c.below) * 2 ^ k ≤ 4 * b.significand + 2 ∧
      ((4 * c.significand - c.below) * 2 ^ k = 4 * b.significand + 2 →
        b.significand % 2 = 0 ∧ c.significand % 2 = 0) := by
  have hQuarter : c.quarter = 2 ^ k * b.quarter := by
    rw [Binary.quarter, hk, Binary.quarter, ← zpow_natCast, ← zpow_add₀ (by norm_num)]
    congr 1
    ring
  have hLow : c.low = (((4 * c.significand - c.below) * 2 ^ k : ℕ) : ℚ) * b.quarter := by
    rw [Binary.low, hQuarter, Nat.cast_mul]
    push_cast
    ring
  have hLe : c.low ≤ b.high := hc.bounds.1.trans hb.bounds.2
  constructor
  · rw [hLow, Binary.high] at hLe
    exact Nat.cast_le.1 ((mul_le_mul_iff_left₀ b.quarter_pos).1 hLe)
  · intro hEq
    have hEnds : c.low = b.high := by rw [hLow, hEq, Binary.high]
    have hHigh : q = b.high := le_antisymm hb.bounds.2 (hEnds ▸ hc.bounds.1)
    exact ⟨hb.even (.inr hHigh), hc.even (.inl (hHigh.trans hEnds.symm))⟩

/-- Of two doubles with one number between their midpoints, neither is finer. -/
theorem exponent_le_of_readsBack {b c : Binary} (hbReg : b.Regular) (hcReg : c.Regular) {q : ℚ}
    (hb : b.ReadsBack q) (hc : c.ReadsBack q) : c.exponent ≤ b.exponent := by
  by_contra hLess
  obtain ⟨k, hk⟩ : ∃ k : Nat, c.exponent = b.exponent + (k + 1 : ℕ) :=
    ⟨(c.exponent - b.exponent - 1).toNat, by omega⟩
  obtain ⟨hLe, hEq⟩ := low_le_high hb hc hk
  have hNormal : -1074 < c.exponent := by
    have hLeast := hbReg.exponent_ge
    omega
  have hFull := hcReg.full hNormal
  have hLt := hbReg.lt
  -- the lower midpoint of the coarser one is at least twice as far up, in its own quarters
  have hTwice : (4 * c.significand - c.below) * 2 ≤ (4 * c.significand - c.below) * 2 ^ (k + 1) :=
    Nat.mul_le_mul_left _ (Nat.le_self_pow (Nat.succ_ne_zero k) 2)
  rcases c.below_eq with ⟨-, hBelow⟩ | ⟨hWide, hBelow⟩
  · omega
  · have hMore : c.significand ≠ 2 ^ 52 := fun hs =>
      hWide (hcReg.narrow_iff.2 ⟨hs, hNormal⟩)
    omega

theorem significand_le_of_readsBack {b c : Binary} (hbReg : b.Regular) (hcReg : c.Regular) {q : ℚ}
    (hb : b.ReadsBack q) (hc : c.ReadsBack q) (hExponent : c.exponent = b.exponent) :
    c.significand ≤ b.significand := by
  obtain ⟨hLe, hEq⟩ := low_le_high (k := 0) hb hc (by simpa using hExponent)
  rw [pow_zero, mul_one] at hLe hEq
  rcases c.below_eq with ⟨hNarrow, hBelow⟩ | ⟨-, hBelow⟩
  · have hFull := hbReg.full
    have hLeast := hcReg.narrow_iff.1 hNarrow
    omega
  · omega

/-- A number lies between the midpoints of one double only. -/
theorem eq_of_readsBack {b c : Binary} (hbReg : b.Regular) (hcReg : c.Regular) {q : ℚ}
    (hb : b.ReadsBack q) (hc : c.ReadsBack q) :
    b.significand = c.significand ∧ b.exponent = c.exponent := by
  have hExponent : b.exponent = c.exponent :=
    le_antisymm (exponent_le_of_readsBack hcReg hbReg hc hb)
      (exponent_le_of_readsBack hbReg hcReg hb hc)
  exact ⟨le_antisymm (significand_le_of_readsBack hcReg hbReg hc hb hExponent)
    (significand_le_of_readsBack hbReg hcReg hb hc hExponent.symm), hExponent⟩

/-! ## Bits -/

section Bits

open Float.Model UnpackedFloat

/-- There is one NaN. -/
theorem toBits_of_isNaN {x : Float} (hExponent : x.toBits.toNat / 2 ^ 52 % 2 ^ 11 = 2047)
    (hFraction : x.toBits.toNat % 2 ^ 52 ≠ 0) :
    x.toBits.toBitVec = packedNaN Format.binary64 := by
  refine x.toModel.valid.eq_packedNaN ?_ ?_
  · apply BitVec.eq_of_toNat_eq
    show (BitVec.extractLsb' 52 11 x.toBits.toBitVec).toNat = _
    rw [BitVec.extractLsb'_toNat, Nat.shiftRight_eq_div_pow]
    exact hExponent
  · intro hZero
    have hLow : (BitVec.extractLsb' 0 52 x.toBits.toBitVec).toNat = 0 :=
      congrArg BitVec.toNat hZero
    rw [BitVec.extractLsb'_toNat, Nat.shiftRight_zero] at hLow
    exact hFraction hLow

/-- The bits of a double, from what it stands for. -/
def Datum.bits : Datum → Nat
  | .nan => (packedNaN Format.binary64).toNat
  | .infinite negative => (if negative then 2 ^ 63 else 0) + 2047 * 2 ^ 52
  | .finite b =>
    (if b.negative then 2 ^ 63 else 0) +
      if b.significand < 2 ^ 52 then b.significand
      else (b.exponent + 1075).toNat * 2 ^ 52 + (b.significand - 2 ^ 52)

theorem bits_ofFloat (x : Float) : (Datum.ofFloat x).bits = x.toBits.toNat := by
  have hBits : x.toBits.toNat < 2 ^ 64 := x.toBits.toNat_lt
  have hSmall : x.toBits.toNat % 4503599627370496 < 2 ^ 52 := Nat.mod_lt _ (by norm_num)
  have hLarge : ¬ 4503599627370496 + x.toBits.toNat % 4503599627370496 < 2 ^ 52 := by omega
  have hFraction : Nat.pow 2 52 = 4503599627370496 := rfl
  have hExponent : Nat.pow 2 11 = 2048 := rfl
  simp only [Datum.ofFloat, Nat.testBit_eq_decide_div_mod_eq, hFraction, hExponent]
  split_ifs with hTop hZero hSubnormal
  · simp only [Datum.bits, decide_eq_true_eq]
    split <;> omega
  · exact (congrArg BitVec.toNat (toBits_of_isNaN hTop hZero)).symm
  · rw [Datum.bits, if_pos hSmall]
    simp only [decide_eq_true_eq]
    split <;> omega
  · rw [Datum.bits, if_neg hLarge]
    simp only [decide_eq_true_eq]
    split <;> omega

theorem ofFloat_injective : Function.Injective Datum.ofFloat := by
  intro x y hxy
  refine Float.toBits_inj.1 (UInt64.toNat_inj.1 ?_)
  rw [← bits_ofFloat, hxy, bits_ofFloat]

/-- A finite double is zero, at the bottom of the range, or regular. -/
theorem zero_or_regular {x : Float} {b : Binary} (hx : Datum.ofFloat x = .finite b) :
    (b.significand = 0 ∧ b.exponent = -1074 ∧ b.narrowBelow = false) ∨ b.Regular := by
  have hFraction : Nat.pow 2 52 = 4503599627370496 := rfl
  have hExponent : Nat.pow 2 11 = 2048 := rfl
  simp only [Datum.ofFloat, hFraction, hExponent] at hx
  split_ifs at hx with hTop hZero hSubnormal
  · cases hx
    rcases Nat.eq_zero_or_pos (x.toBits.toNat % 4503599627370496) with hNone | hPos
    · exact .inl ⟨hNone, rfl, rfl⟩
    · exact .inr ⟨hPos, by dsimp only; omega, le_rfl, by norm_num, fun h => absurd h (lt_irrefl _),
        by simp⟩
  · cases hx
    exact .inr ⟨by dsimp only; omega, by dsimp only; omega, by dsimp only; omega,
      by dsimp only; omega, fun _ => by dsimp only; omega, by simp; omega⟩

end Bits

/-- Finite doubles of one sign with the same shortest digits, or other digits of equal value, are
one. -/
theorem eq_of_value_shortest {x y : Float} {b c : Binary} {tie : Tie}
    (hx : Datum.ofFloat x = .finite b) (hy : Datum.ofFloat y = .finite c)
    (hSign : b.negative = c.negative) (hValue : (shortest tie b).value = (shortest tie c).value) :
    x = y := by
  have hZero : ∀ {a : Binary}, a.significand = 0 → (shortest tie a).value = 0 := by
    intro a ha
    rw [shortest, if_pos ha]
    simp [Digits.value]
  have hSame : b.significand = c.significand ∧ b.exponent = c.exponent ∧
      b.narrowBelow = c.narrowBelow := by
    rcases zero_or_regular hx with ⟨hb, hb', hb''⟩ | hb <;>
      rcases zero_or_regular hy with ⟨hc, hc', hc''⟩ | hc
    · exact ⟨hb.trans hc.symm, hb'.trans hc'.symm, hb''.trans hc''.symm⟩
    -- zero has the value zero, and what reads back as another number is not zero
    · have hPos := (readsBack_shortest hc tie).pos hc.pos
      rw [← hValue, hZero hb] at hPos
      exact absurd hPos (lt_irrefl _)
    · have hPos := (readsBack_shortest hb tie).pos hb.pos
      rw [hValue, hZero hc] at hPos
      exact absurd hPos (lt_irrefl _)
    · have hReads := readsBack_shortest hb tie
      rw [hValue] at hReads
      obtain ⟨hSignificand, hExponent⟩ := eq_of_readsBack hb hc hReads (readsBack_shortest hc tie)
      refine ⟨hSignificand, hExponent, Bool.eq_iff_iff.2 ?_⟩
      rw [hb.narrow_iff, hc.narrow_iff, hSignificand, hExponent]
  obtain ⟨hSignificand, hExponent, hNarrow⟩ := hSame
  apply ofFloat_injective
  rw [hx, hy, Datum.finite.injEq]
  cases b
  cases c
  simp_all

end DocGraph.Decimal
