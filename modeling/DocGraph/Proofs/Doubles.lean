import DocGraph.Decimal.Read
import Mathlib

/-!
# DocGraph: doubles that are numbers

A double is NaN, infinite, zero, or an ordinary number. Products and quotients with an ordinary
number make no NaN, and neither do conversions of whole numbers and changes of sign. The powers of
ten up to the range of a double are ordinary: such a power is a whole number whose leading 53 bits
are kept, and one more bit from rounding up does not lead out of the range.

* `isNaN_mul`, `isNaN_div`, `isNaN_neg`, `isNaN_ofInt`: no NaN is made.
* `unpack_pack` / `exists_round`: a number of 53 bits is packed as it is, and others are rounded to
  such numbers.
* `isOrdinary_pack_round`: a number that is rounded well within the range is ordinary.
* `isOrdinary_nearest_one`: the powers of ten are.
-/

namespace DocGraph.Decimal

open Float.Model UnpackedFloat

/-- The double is a number other than zero. -/
def isOrdinary (x : Float) : Bool :=
  match x.toModel.unpack with
  | .finite _ _ _ _ => true
  | _ => false

theorem exists_unpack_of_isOrdinary {x : Float} (hx : isOrdinary x = true) :
    ∃ s m e h, x.toModel.unpack = .finite s m e h := by
  unfold isOrdinary at hx
  cases hUnpacked : x.toModel.unpack with
  | finite s m e h => exact ⟨s, m, e, h, rfl⟩
  | infinity s =>
    rw [hUnpacked] at hx
    contradiction
  | notANumber =>
    rw [hUnpacked] at hx
    contradiction
  | zero s =>
    rw [hUnpacked] at hx
    contradiction

/-! ## No operation makes a NaN -/

/-- The exponent of a finite number does not read as that of infinity. -/
theorem exponent_ne {biased : Nat} (h : ¬ 2 ^ 11 ≤ biased + 1) :
    BitVec.ofNat 11 biased ≠ -1#11 := by
  intro hEq
  have hValues := congrArg BitVec.toNat hEq
  have hMod : biased % 2 ^ 11 = 2047 := hValues
  omega

theorem isNaN_pack (u : UnpackedFloat) : (Float.ofModel (.pack u)).isNaN = u.isNaN := by
  show (UnpackedFloat.unpack Format.binary64 (UnpackedFloat.pack Format.binary64 u)).isNaN = _
  fun_cases UnpackedFloat.pack Format.binary64 u with
  | case1 => decide
  | case2 s => cases s <;> decide
  | case3 s => cases s <;> decide
  | case4 s m e hm biased h => cases s <;> rfl
  | case5 s m e hm bits biased hExponent hNormal =>
    have hNe : BitVec.ofNat 11 biased ≠ -1#11 := exponent_ne hExponent
    unfold UnpackedFloat.unpack
    simp only [unpackExponent_packComponents, unpackMantissa_packComponents, hNe, if_false]
    split
    · split <;> rfl
    · rfl
  | case6 s m e hm bits biased hExponent hSubnormal =>
    have hNe : (0#11) ≠ -1#11 := by decide
    unfold UnpackedFloat.unpack
    simp only [unpackExponent_packComponents, unpackMantissa_packComponents, hNe, if_false, if_true]
    split <;> rfl

theorem isNaN_round (s : Sign) (m : Nat) (e : Int) (a : Accuracy) :
    (roundWithAccuracy Format.binary64 s m e a).isNaN = false := by
  unfold roundWithAccuracy
  dsimp only
  split <;> rfl

/-- A product with a finite number other than zero. -/
theorem isNaN_mul_finite {u : UnpackedFloat} (hu : u.isNaN = false) (s : Sign) (m : Nat) (e : Int)
    (h : 0 < m) : (UnpackedFloat.mul Format.binary64 u (.finite s m e h)).isNaN = false := by
  cases u with
  | infinity _ => rfl
  | notANumber => exact hu
  | zero _ => rfl
  | finite _ _ _ _ => exact isNaN_round _ _ _ _

/-- A quotient by a finite number other than zero. -/
theorem isNaN_div_finite {u : UnpackedFloat} (hu : u.isNaN = false) (s : Sign) (m : Nat) (e : Int)
    (h : 0 < m) : (UnpackedFloat.div Format.binary64 u (.finite s m e h)).isNaN = false := by
  cases u with
  | infinity _ => rfl
  | notANumber => exact hu
  | zero _ => rfl
  | finite _ _ _ _ => exact isNaN_round _ _ _ _

theorem isNaN_mul {x p : Float} (hx : x.isNaN = false) (hp : isOrdinary p = true) :
    (x * p).isNaN = false := by
  obtain ⟨s, m, e, h, hUnpacked⟩ := exists_unpack_of_isOrdinary hp
  have hPacked : (x * p).isNaN =
      (UnpackedFloat.mul Format.binary64 x.toModel.unpack p.toModel.unpack).isNaN :=
    isNaN_pack _
  rw [hPacked, hUnpacked]
  exact isNaN_mul_finite hx s m e h

theorem isNaN_div {x p : Float} (hx : x.isNaN = false) (hp : isOrdinary p = true) :
    (x / p).isNaN = false := by
  obtain ⟨s, m, e, h, hUnpacked⟩ := exists_unpack_of_isOrdinary hp
  have hPacked : (x / p).isNaN =
      (UnpackedFloat.div Format.binary64 x.toModel.unpack p.toModel.unpack).isNaN :=
    isNaN_pack _
  rw [hPacked, hUnpacked]
  exact isNaN_div_finite hx s m e h

theorem isNaN_neg (x : Float) : (-x).isNaN = x.isNaN := by
  have hPacked : (-x).isNaN = x.toModel.unpack.neg.isNaN := isNaN_pack _
  rw [hPacked]
  show _ = x.toModel.unpack.isNaN
  cases x.toModel.unpack <;> rfl

theorem isNaN_normalize (m e : Int) (s : Sign) :
    (UnpackedFloat.normalize Format.binary64 m e s).isNaN = false := by
  unfold UnpackedFloat.normalize
  split
  · exact isNaN_round _ _ _ _
  · rfl
  · exact isNaN_round _ _ _ _

theorem isNaN_ofScientific (m : Nat) (e : Int) :
    (UnpackedFloat.ofScientific Format.binary64 m e).isNaN = false := by
  unfold UnpackedFloat.ofScientific
  split
  · rfl
  · split
    · rfl
    · split
      · rfl
      · split
        · exact isNaN_mul_finite rfl _ _ _ _
        · exact isNaN_div_finite rfl _ _ _ _

theorem isNaN_ofNat (n : Nat) : (Float.ofNat n).isNaN = false := by
  show (Float.ofScientific n false 0).isNaN = false
  unfold Float.ofScientific
  split
  · -- small enough to be converted as a machine word, and multiplied by one
    have hWord : n.toUInt64.toFloat.isNaN = false :=
      (isNaN_pack _).trans (isNaN_normalize _ _ _)
    have hOne : isOrdinary (Float.ofBits 0x3FF0000000000000) = true := by decide
    exact isNaN_mul hWord hOne
  · exact (isNaN_pack _).trans (isNaN_ofScientific _ _)

theorem isNaN_ofInt (n : Int) : (Float.ofInt n).isNaN = false := by
  cases n with
  | ofNat n => exact isNaN_ofNat n
  | negSucc n => exact (isNaN_neg _).trans (isNaN_ofNat _)

/-! ## Rounding within the range -/

theorem mantissa_shiftRight (em : ExtendedMantissa) (n : Nat) :
    (em >>> n).mantissa = em.mantissa / 2 ^ n := by
  induction n with
  | zero => exact (Nat.div_one _).symm
  | succ n ih =>
    show (em >>> n).mantissa / 2 = _
    rw [ih, Nat.div_div_eq_div_mul, Nat.pow_succ]

theorem mantissa_ofMantissaAndAccuracy (m : Nat) (a : Accuracy) :
    (ExtendedMantissa.ofMantissaAndAccuracy m a).mantissa = m := by
  cases a with
  | exact => rfl
  | inexact o => cases o <;> rfl

theorem roundedMantissa_bounds (em : ExtendedMantissa) :
    em.mantissa ≤ em.roundedMantissa ∧ em.roundedMantissa ≤ em.mantissa + 1 := by
  obtain ⟨m, round, sticky⟩ := em
  unfold ExtendedMantissa.roundedMantissa
  cases round <;> cases sticky <;>
    simp only [ExtendedMantissa.accuracy, Accuracy.roundToNearestEven] <;> omega

theorem log2_mul_two_pow {n : Nat} (hn : n ≠ 0) (k : Nat) : (n * 2 ^ k).log2 = n.log2 + k := by
  induction k with
  | zero => rw [Nat.pow_zero, Nat.mul_one, Nat.add_zero]
  | succ k ih =>
    have hPos : n * 2 ^ k ≠ 0 := Nat.mul_ne_zero hn (Nat.ne_of_gt (Nat.two_pow_pos k))
    have hStep : n * 2 ^ (k + 1) = 2 * (n * 2 ^ k) := by ring
    rw [hStep, Nat.log2_two_mul hPos, ih, Nat.add_assoc]

/-- The leading 53 bits of a number. -/
theorem log2_leading {m : Nat} (hm : 2 ^ 52 ≤ m) : (m / 2 ^ (m.log2 - 52)).log2 = 52 := by
  have hPos : m ≠ 0 := by omega
  have hBits : 52 ≤ m.log2 := (Nat.le_log2 hPos).2 hm
  have hLow : 2 ^ (52 + (m.log2 - 52)) ≤ m := by
    rw [Nat.add_sub_cancel' hBits]
    exact Nat.log2_self_le hPos
  have hHigh : m < 2 ^ (53 + (m.log2 - 52)) := by
    have hEq : 53 + (m.log2 - 52) = m.log2 + 1 := by omega
    rw [hEq]
    exact Nat.lt_log2_self
  rw [Nat.pow_add] at hLow hHigh
  have hLeast : 2 ^ 52 ≤ m / 2 ^ (m.log2 - 52) :=
    (Nat.le_div_iff_mul_le (Nat.two_pow_pos _)).2 hLow
  have hLess : m / 2 ^ (m.log2 - 52) < 2 ^ 53 :=
    (Nat.div_lt_iff_lt_mul (Nat.two_pow_pos _)).2 hHigh
  exact (Nat.log2_eq_iff (by omega)).2 ⟨hLeast, hLess⟩

theorem targetExponent_eq {m : Nat} {e : Int} (he : -1022 ≤ m.log2 + e) :
    Format.binary64.targetExponent (totalExponent m e) = m.log2 + e - 52 := by
  have hLeast : Format.binary64.minExponent = -1074 := by decide
  have hWidth : (Format.binary64.mantissaBits : Int) = 53 := by decide
  unfold Format.targetExponent totalExponent
  rw [hLeast, hWidth]
  omega

/-- A number of 53 bits or more, not too close to zero, is shifted to its leading 53 bits. -/
theorem shift_eq {m : Nat} {e : Int} (a : Accuracy) (hm : 2 ^ 52 ≤ m) (he : -1022 ≤ m.log2 + e) :
    (shiftToTargetExponent Format.binary64 m e a).1.mantissa = m / 2 ^ (m.log2 - 52) ∧
      (shiftToTargetExponent Format.binary64 m e a).2 = e + (m.log2 - 52 : Nat) := by
  have hBits : 52 ≤ m.log2 := (Nat.le_log2 (by omega)).2 hm
  have hTarget := targetExponent_eq he
  have hAmount : (m.log2 + e - 52 - e).toNat = m.log2 - 52 := by omega
  unfold shiftToTargetExponent shiftToExponent
  simp only [hTarget, hAmount, mantissa_shiftRight, mantissa_ofMantissaAndAccuracy]
  exact ⟨trivial, trivial⟩

/-- A finite number of exactly 53 bits is packed as it is. -/
theorem unpack_pack {s : Sign} {m : Nat} {e : Int} (h : 0 < m) (hm : m.log2 = 52)
    (hLow : -1074 ≤ e) (hHigh : e ≤ 971) :
    (Float.ofModel (.pack (.finite s m e h))).toModel.unpack = .finite s m e h := by
  obtain ⟨biased, hBiased⟩ : ∃ biased : Nat, e + 1075 = biased := ⟨(e + 1075).toNat, by omega⟩
  have hBias : (Format.binary64.exponentBias : Int) = 1023 := by decide
  have hExponent : (e + Format.binary64.exponentBias +
      Format.binary64.mantissaBitsWithoutImplicit).toNat = biased := by
    rw [hBias]
    show (e + 1023 + 52).toNat = biased
    omega
  have hBits : m.log2 + 1 = Format.binary64.mantissaBits := by
    rw [hm]
    rfl
  have hFits : ¬ 2 ^ 11 ≤ biased + 1 := by omega
  have hNe : BitVec.ofNat 11 biased ≠ -1#11 := exponent_ne hFits
  have hPos : BitVec.ofNat 11 biased ≠ 0#11 := by
    intro hEq
    have hMod : biased % 2 ^ 11 = 0 := congrArg BitVec.toNat hEq
    omega
  have hPacked : UnpackedFloat.pack Format.binary64 (.finite s m e h) =
      packComponents Format.binary64 s (BitVec.ofNat 11 biased) (BitVec.ofNat 52 m) := by
    rw [UnpackedFloat.pack]
    dsimp only
    rw [hExponent, if_neg hFits, if_pos hBits]
  -- the first of the 53 bits is not stored
  have hMantissa : (1#1 ++ BitVec.ofNat 52 m).toNat = m := by
    obtain ⟨hLeast, hLess⟩ := (Nat.log2_eq_iff (Nat.ne_of_gt h)).1 hm
    rw [BitVec.toNat_append, BitVec.toNat_ofNat, BitVec.toNat_ofNat,
      ← Nat.shiftLeft_add_eq_or_of_lt (Nat.mod_lt _ (Nat.two_pow_pos 52)), Nat.shiftLeft_eq]
    omega
  have hUnbiased : ((BitVec.ofNat 11 biased).toNat : Int) -
      (Format.binary64.exponentBias + Format.binary64.mantissaBitsWithoutImplicit) = e := by
    rw [BitVec.toNat_ofNat, hBias]
    show ((biased % 2 ^ 11 : Nat) : Int) - (1023 + 52) = e
    omega
  show UnpackedFloat.unpack Format.binary64
    (UnpackedFloat.pack Format.binary64 (.finite s m e h)) = _
  rw [hPacked]
  unfold UnpackedFloat.unpack
  simp only [unpackExponent_packComponents, unpackMantissa_packComponents,
    unpackSign_packComponents, Sign.ofBitVec_toBitVec, hNe, hPos, if_false]
  congr 1

/-- A number of 53 bits or more is rounded to its leading 53 bits, or to the next number of them. -/
theorem exists_round (s : Sign) {m : Nat} {e : Int} (a : Accuracy) (hm : 2 ^ 52 ≤ m)
    (hLow : -1022 ≤ m.log2 + e) :
    ∃ m' e' h, roundWithAccuracy Format.binary64 s m e a = .finite s m' e' h ∧ m'.log2 = 52 ∧
      m.log2 + e - 52 ≤ e' ∧ e' ≤ m.log2 + e - 51 := by
  obtain ⟨hMantissa, hExponent⟩ := shift_eq a hm hLow
  have hBits : 52 ≤ m.log2 := (Nat.le_log2 (by omega)).2 hm
  unfold roundWithAccuracy
  revert hMantissa hExponent
  generalize shiftToTargetExponent Format.binary64 m e a = shifted
  obtain ⟨em, e'⟩ := shifted
  intro hMantissa hExponent
  dsimp only at hMantissa hExponent ⊢
  -- rounding adds one at most, which may make a bit more
  have hLeading : em.mantissa.log2 = 52 := by
    rw [hMantissa]
    exact log2_leading hm
  have hPos : em.mantissa ≠ 0 := by
    intro hZero
    rw [hZero] at hLeading
    contradiction
  obtain ⟨hLeast, hLess⟩ := (Nat.log2_eq_iff hPos).1 hLeading
  obtain ⟨hUp, hUp'⟩ := roundedMantissa_bounds em
  have hRounded : 2 ^ 52 ≤ em.roundedMantissa := by omega
  have hWidth : em.roundedMantissa.log2 ≤ 53 := by
    have hLt : em.roundedMantissa.log2 < 54 := (Nat.log2_lt (by omega)).2 (by omega)
    omega
  have hWidth' : 52 ≤ em.roundedMantissa.log2 := (Nat.le_log2 (by omega)).2 hRounded
  obtain ⟨hFinal, hFinal'⟩ :=
    shift_eq (m := em.roundedMantissa) (e := e') .exact hRounded (by omega)
  have hLog : (shiftToTargetExponent Format.binary64 em.roundedMantissa e' .exact).1.mantissa.log2
      = 52 := by
    rw [hFinal]
    exact log2_leading hRounded
  split
  next hZero =>
    rw [hZero] at hLog
    contradiction
  next hNonzero =>
    exact ⟨_, _, Nat.pos_of_ne_zero hNonzero, rfl, hLog, by omega, by omega⟩

/-- A number of 53 bits or more that lies well within the range is ordinary once it is rounded. -/
theorem isOrdinary_pack_round (s : Sign) {m : Nat} {e : Int} (a : Accuracy) (hm : 2 ^ 52 ≤ m)
    (hLow : -1022 ≤ m.log2 + e) (hHigh : m.log2 + e ≤ 1022) :
    isOrdinary (Float.ofModel (.pack (roundWithAccuracy Format.binary64 s m e a))) = true := by
  obtain ⟨m', e', h, hRound, hLog, hLeast, hMost⟩ := exists_round s a hm hLow
  rw [hRound]
  unfold isOrdinary
  rw [unpack_pack h hLog (by omega) (by omega)]

/-- A decimal numeral that is a whole number is rounded with 53 zeros behind it. -/
theorem ofScientific_eq_round {n e : Nat} (hn : n ≠ 0) (he : e ≤ 2048) :
    UnpackedFloat.ofScientific Format.binary64 n e =
      roundWithAccuracy Format.binary64 .positive (n <<< 53 * 10 ^ e) (-53) .exact := by
  have hRange : ¬ ((e : Int) > 2 ^ Format.binary64.exponentBits) := by
    show ¬ ((e : Int) > 2048)
    omega
  have hRange' : ¬ ((e : Int) < -((2 ^ Format.binary64.exponentBits : Int) + Nat.log2 n)) := by
    show ¬ ((e : Int) < -(2048 + Nat.log2 n))
    omega
  unfold UnpackedFloat.ofScientific
  rw [dif_neg hn, if_neg hRange, if_neg hRange', if_pos (by omega)]
  rfl

/-! ## Powers of ten -/

/-- Forty-three decimal digits are less than 143 bits, and six are less than twenty. -/
theorem log2_pow_ten_lt {e n k : Nat} (he : e ≤ 43 * n + 6) (hk : 143 * n + 20 < k) :
    (10 ^ e).log2 < k := by
  have hPart : 10 ^ 43 ≤ 2 ^ 143 := by decide
  have hRest : 10 ^ 6 ≤ 2 ^ 20 := by decide
  have hGrid : 10 ^ (43 * n + 6) ≤ 2 ^ (143 * n + 20) := by
    rw [Nat.pow_add, Nat.pow_add, Nat.pow_mul, Nat.pow_mul]
    exact Nat.mul_le_mul (Nat.pow_le_pow_left hPart n) hRest
  have hPos : 10 ^ e ≠ 0 := Nat.ne_of_gt (Nat.pow_pos (by decide))
  have hBound : 10 ^ e ≤ 10 ^ (43 * n + 6) := Nat.pow_le_pow_right (by decide) he
  have hLess : 2 ^ (143 * n + 20) < 2 ^ k := Nat.pow_lt_pow_right (by decide) hk
  exact (Nat.log2_lt hPos).2 (Nat.lt_of_le_of_lt (Nat.le_trans hBound hGrid) hLess)

theorem isOrdinary_ofScientific_one {e : Nat} (he : e ≤ 307) :
    isOrdinary (Float.ofModel (Float.Model.ofScientific 1 e)) = true := by
  have hPos : 10 ^ e ≠ 0 := Nat.ne_of_gt (Nat.pow_pos (by decide))
  have hLog : (10 ^ e).log2 < 1023 := log2_pow_ten_lt (n := 7) (by omega) (by decide)
  have hShifted : 1 <<< 53 * 10 ^ e = 10 ^ e * 2 ^ 53 := Nat.mul_comm _ _
  have hFactor : (1 <<< 53 * 10 ^ e).log2 = (10 ^ e).log2 + 53 := by
    rw [hShifted, log2_mul_two_pow hPos]
  show isOrdinary (Float.ofModel (.pack (UnpackedFloat.ofScientific Format.binary64 1 e))) = true
  rw [ofScientific_eq_round (by decide) (by omega)]
  refine isOrdinary_pack_round _ _ ?_ ?_ ?_
  · rw [hShifted]
    omega
  · omega
  · omega

theorem isOrdinary_nearest_one {e : Nat} (he : e ≤ 308) : isOrdinary (nearest 1 e) = true := by
  by_cases hSmall : e ≤ 22
  · -- the powers that are tabulated
    have hTable : ∀ e ≤ 22, isOrdinary (nearest 1 (e : Nat)) = true := by decide +kernel
    exact hTable e hSmall
  · by_cases hLast : e = 308
    · -- rounding up could just lead out of the range here
      subst hLast
      decide +kernel
    · have hNearest : nearest 1 e = Float.ofModel (Float.Model.ofScientific 1 e) := by
        have hDigit : (Nat.toDigits 10 1).length = 1 := by decide
        unfold nearest
        rw [hDigit]
        have hSign : decide ((e : Int) < 0) = false := by simp
        simp only [hSign]
        rw [if_neg (by simp; omega), if_neg (by omega)]
        show Float.ofScientific 1 false e = _
        unfold Float.ofScientific
        rw [dif_neg (by omega)]
        rfl
      rw [hNearest]
      exact isOrdinary_ofScientific_one (by omega)

end DocGraph.Decimal
