import DocGraph.Proofs.Doubles
import Mathlib

/-!
# DocGraph: which whole numbers become which doubles

A whole number of up to 53 bits becomes a double exactly: its bits are kept and zeros are put behind
them. A longer one keeps its leading bits, rounded, and its double has a positive exponent, which
tells it from those of the short ones. So two whole numbers may become one double, but not if one of
them is less than 2⁵³ in magnitude.

* `round_exact`: what has 53 bits but for zeros behind them is rounded to itself.
* `unpack_ofNat` / `unpack_ofInt`: the double of a whole number other than zero.
* `eq_of_ofInt_beq`: a whole number below 2⁵³ is told from all others by its double.
-/

namespace DocGraph.Decimal

open Float.Model UnpackedFloat

/-! ## Exact rounding -/

/-- Bits that are zero are shifted out without a trace. -/
theorem shiftRight_mul_two_pow (m n : Nat) :
    (⟨m * 2 ^ n, false, false⟩ : ExtendedMantissa) >>> n = ⟨m, false, false⟩ := by
  induction n generalizing m with
  | zero =>
    rw [Nat.pow_zero, Nat.mul_one]
    rfl
  | succ n ih =>
    have hTwice : m * 2 ^ (n + 1) = 2 * m * 2 ^ n := by ring
    have hHalf : 2 * m / 2 = m := by omega
    have hEven : 2 * m % 2 = 0 := by omega
    show ExtendedMantissa.shiftRightOne
      ((⟨m * 2 ^ (n + 1), false, false⟩ : ExtendedMantissa) >>> n) = _
    rw [hTwice, ih (2 * m)]
    show (⟨2 * m / 2, 2 * m % 2 != 0, false⟩ : ExtendedMantissa) = _
    rw [hHalf, hEven]
    rfl

variable {m n : Nat} {e : Int}

/-- Zeros behind 53 bits go into the exponent. -/
theorem shift_exact (hm : m.log2 = 52) (he : -1074 ≤ e + n) :
    shiftToTargetExponent Format.binary64 (m * 2 ^ n) e .exact = (⟨m, false, false⟩, e + n) := by
  have hPos : m ≠ 0 := by
    rintro rfl
    contradiction
  have hLog : (m * 2 ^ n).log2 = 52 + n := by rw [log2_mul_two_pow hPos, hm]
  have hTarget : Format.binary64.targetExponent (totalExponent (m * 2 ^ n) e) = e + n := by
    rw [targetExponent_eq (by omega), hLog]
    omega
  have hAmount : (e + n - e).toNat = n := by omega
  unfold shiftToTargetExponent shiftToExponent
  simp only [hTarget, hAmount]
  show ((⟨m * 2 ^ n, false, false⟩ : ExtendedMantissa) >>> n, e + (n : Int)) = _
  rw [shiftRight_mul_two_pow]

theorem round_exact (s : Sign) (h : 0 < m) (hm : m.log2 = 52) (he : -1074 ≤ e + n) :
    roundWithAccuracy Format.binary64 s (m * 2 ^ n) e .exact = .finite s m (e + n) h := by
  have hAgain := shift_exact (n := 0) (e := e + n) hm (by omega)
  rw [Nat.pow_zero, Nat.mul_one, Nat.cast_zero, Int.add_zero] at hAgain
  unfold roundWithAccuracy
  rw [shift_exact hm he]
  show (match shiftToTargetExponent Format.binary64 m (e + n) .exact with
    | (final, exponent) =>
      if h : final.mantissa = 0 then UnpackedFloat.zero s
      else .finite s final.mantissa exponent (Nat.pos_of_ne_zero h)) = _
  rw [hAgain]
  exact dif_neg (Nat.ne_of_gt h)

/-! ## The double of a whole number -/

/-- The mantissa and the exponent that a whole number is given: its own bits, if they are not too
many, and else an exponent that no number of so few bits is given. -/
structure Converts (n m : Nat) (e : Int) : Prop where
  width : m.log2 = 52
  low : -1074 ≤ e
  high : e ≤ 971
  exact : n < 2 ^ 53 → m = n * 2 ^ (52 - n.log2) ∧ e = n.log2 - 52
  rounded : 2 ^ 53 ≤ n → 1 ≤ e

/-- A number below 2⁵³ does not share its mantissa and exponent. -/
theorem Converts.unique {n' : Nat} (h : Converts n m e) (h' : Converts n' m e) (hn : n < 2 ^ 53)
    (hPos : 0 < n) : n = n' := by
  have hLog : n.log2 < 53 := (Nat.log2_lt (Nat.ne_of_gt hPos)).2 hn
  obtain ⟨hMantissa, hExponent⟩ := h.exact hn
  by_cases hn' : n' < 2 ^ 53
  · obtain ⟨hMantissa', hExponent'⟩ := h'.exact hn'
    have hSame : n.log2 = n'.log2 := by omega
    rw [hMantissa, hSame] at hMantissa'
    exact Nat.eq_of_mul_eq_mul_right (Nat.two_pow_pos _) hMantissa'
  · have hLarge := h'.rounded (by omega)
    omega

/-- With zeros behind it a number below 2⁵³ has 53 bits. -/
theorem log2_filled (hPos : 0 < n) (hn : n < 2 ^ 53) : (n * 2 ^ (52 - n.log2)).log2 = 52 := by
  have hLog : n.log2 < 53 := (Nat.log2_lt (Nat.ne_of_gt hPos)).2 hn
  rw [log2_mul_two_pow (Nat.ne_of_gt hPos)]
  omega

/-- A machine word below 2⁵³ is converted by putting zeros behind it. -/
theorem unpack_toFloat (hPos : 0 < n) (hn : n < 2 ^ 53) (h : 0 < n * 2 ^ (52 - n.log2)) :
    n.toUInt64.toFloat.toModel.unpack =
      .finite .positive (n * 2 ^ (52 - n.log2)) (n.log2 - 52) h := by
  have hLog : n.log2 < 53 := (Nat.log2_lt (Nat.ne_of_gt hPos)).2 hn
  have hWidth := log2_filled hPos hn
  have hWord : n.toUInt64.toNat = n := Nat.mod_eq_of_lt (by omega)
  have hAmount : (0 - ((n.log2 : Int) + 0 - 52)).toNat = 52 - n.log2 := by omega
  have hExponent : (0 : Int) - (52 - n.log2 : Nat) = (n.log2 : Int) - 52 + (0 : Nat) := by omega
  have hRound : UnpackedFloat.ofUInt64 Format.binary64 n.toUInt64 =
      .finite .positive (n * 2 ^ (52 - n.log2)) (n.log2 - 52) h := by
    show UnpackedFloat.normalize Format.binary64 (n.toUInt64.toNat : Int) 0 .positive = _
    rw [hWord]
    unfold UnpackedFloat.normalize
    rw [Int.compare_eq_gt.2 (by omega)]
    show UnpackedFloat.round Format.binary64 .positive n 0 = _
    unfold UnpackedFloat.round decreaseExponent
    simp only [targetExponent_eq (m := n) (e := 0) (by omega), hAmount]
    rw [hExponent, Nat.shiftLeft_eq]
    have hExact := round_exact (n := 0) (e := (n.log2 : Int) - 52) .positive h hWidth (by omega)
    simpa using hExact
  show (Float.ofModel (.pack (UnpackedFloat.ofUInt64 Format.binary64
    n.toUInt64))).toModel.unpack = _
  rw [hRound]
  exact unpack_pack h hWidth (by omega) (by omega)

/-- A product with the double that is one. -/
theorem unpack_mul_one {x : Float} {s : Sign} (h : 0 < m)
    (hx : x.toModel.unpack = .finite s m e h) (hm : m.log2 = 52) (hLow : -1074 ≤ e)
    (hHigh : e ≤ 971) : (x * Float.ofBits 0x3FF0000000000000).toModel.unpack = .finite s m e h := by
  have hOne : (Float.ofBits 0x3FF0000000000000).toModel.unpack =
      .finite .positive (2 ^ 52) (-52) (Nat.two_pow_pos 52) := rfl
  have hSign : s * .positive = s := by cases s <;> rfl
  have hExponent : e + -52 + (52 : Nat) = e := by omega
  have hRound : UnpackedFloat.mul Format.binary64 x.toModel.unpack
      (Float.ofBits 0x3FF0000000000000).toModel.unpack = .finite s m e h := by
    rw [hx, hOne]
    show roundWithAccuracy Format.binary64 (s * .positive) (m * 2 ^ 52) (e + -52) .exact = _
    rw [hSign, round_exact s h hm (by omega)]
    simp only [hExponent]
  show (Float.ofModel (.pack (UnpackedFloat.mul Format.binary64 x.toModel.unpack
    (Float.ofBits 0x3FF0000000000000).toModel.unpack))).toModel.unpack = _
  rw [hRound]
  exact unpack_pack h hm hLow hHigh

/-- A number below 2⁵³ is converted as a machine word. -/
theorem unpack_ofNat_of_lt (hPos : 0 < n) (hn : n < 2 ^ 53) :
    ∃ m e h, (Float.ofNat n).toModel.unpack = .finite .positive m e h ∧ Converts n m e := by
  have hLog : n.log2 < 53 := (Nat.log2_lt (Nat.ne_of_gt hPos)).2 hn
  have h : 0 < n * 2 ^ (52 - n.log2) := Nat.mul_pos hPos (Nat.two_pow_pos _)
  have hWidth := log2_filled hPos hn
  have hProduct : Float.ofNat n = n.toUInt64.toFloat * Float.ofBits 0x3FF0000000000000 := by
    show Float.ofScientific n false 0 = _
    unfold Float.ofScientific
    rw [dif_pos ⟨hn, Nat.zero_le _⟩]
    rfl
  refine ⟨n * 2 ^ (52 - n.log2), n.log2 - 52, h, ?_, hWidth, by omega, by omega,
    fun _ => ⟨rfl, rfl⟩, fun _ => by omega⟩
  rw [hProduct]
  exact unpack_mul_one h (unpack_toFloat hPos hn h) hWidth (by omega) (by omega)

/-- A number from 2⁵³ on is rounded, as a decimal numeral is. -/
theorem unpack_ofNat_of_le (hLarge : 2 ^ 53 ≤ n) (hn : n < 2 ^ 64) :
    ∃ m e h, (Float.ofNat n).toModel.unpack = .finite .positive m e h ∧ Converts n m e := by
  have hNonzero : n ≠ 0 := by omega
  have hLeast : 53 ≤ n.log2 := (Nat.le_log2 hNonzero).2 hLarge
  have hMost : n.log2 < 64 := (Nat.log2_lt hNonzero).2 hn
  have hShifted : n <<< 53 * 10 ^ 0 = n * 2 ^ 53 := by
    rw [Nat.pow_zero, Nat.mul_one, Nat.shiftLeft_eq]
  have hLog : (n <<< 53 * 10 ^ 0).log2 = n.log2 + 53 := by
    rw [hShifted, log2_mul_two_pow hNonzero]
  have hBits : 2 ^ 52 ≤ n <<< 53 * 10 ^ 0 := by
    rw [hShifted]
    omega
  obtain ⟨m, e, h, hRound, hWidth, hLow, hHigh⟩ :=
    exists_round .positive (e := -53) .exact hBits (by omega)
  have hNumeral : Float.ofNat n =
      Float.ofModel (.pack (UnpackedFloat.ofScientific Format.binary64 n (0 : Nat))) := by
    show Float.ofScientific n false 0 = _
    unfold Float.ofScientific
    rw [dif_neg fun hSmall => by omega]
    rfl
  refine ⟨m, e, h, ?_, hWidth, by omega, by omega, fun hSmall => by omega, fun _ => by omega⟩
  rw [hNumeral, ofScientific_eq_round hNonzero (by omega), hRound]
  exact unpack_pack h hWidth (by omega) (by omega)

theorem unpack_ofNat (hPos : 0 < n) (hn : n < 2 ^ 64) :
    ∃ m e h, (Float.ofNat n).toModel.unpack = .finite .positive m e h ∧ Converts n m e := by
  by_cases hSmall : n < 2 ^ 53
  · exact unpack_ofNat_of_lt hPos hSmall
  · exact unpack_ofNat_of_le (by omega) hn

/-- The sign of an integer other than zero. -/
def signOf : Int → Sign
  | .ofNat _ => .positive
  | .negSucc _ => .negative

theorem eq_of_signOf_of_natAbs {i k : Int} (hSign : signOf i = signOf k)
    (hAbs : i.natAbs = k.natAbs) : i = k := by
  cases i with
  | ofNat n =>
    cases k with
    | ofNat n' => exact congrArg Int.ofNat hAbs
    | negSucc n' => contradiction
  | negSucc n =>
    cases k with
    | ofNat n' => contradiction
    | negSucc n' => exact congrArg Int.negSucc (Nat.succ.inj hAbs)

theorem unpack_ofInt {i : Int} (hNonzero : i ≠ 0) (hi : i.natAbs < 2 ^ 64) :
    ∃ m e h, (Float.ofInt i).toModel.unpack = .finite (signOf i) m e h ∧
      Converts i.natAbs m e := by
  obtain ⟨m, e, h, hUnpack, hConverts⟩ := unpack_ofNat (Int.natAbs_pos.2 hNonzero) hi
  refine ⟨m, e, h, ?_, hConverts⟩
  cases i with
  | ofNat n => exact hUnpack
  | negSucc n =>
    show (Float.ofModel (.pack (Float.ofNat (n + 1)).toModel.unpack.neg)).toModel.unpack = _
    have hNat : (Float.ofNat (n + 1)).toModel.unpack = .finite .positive m e h := hUnpack
    rw [hNat]
    exact unpack_pack h hConverts.width hConverts.low hConverts.high

/-- A whole number below 2⁵³ in magnitude shares its double with no other one. -/
theorem eq_of_ofInt_beq {i k : Int} (hi : i.natAbs < 2 ^ 53) (hk : k.natAbs < 2 ^ 64)
    (hEq : (Float.ofInt i == Float.ofInt k) = true) : i = k := by
  have hUnpacked : (Float.ofInt i).toModel.unpack.beq (Float.ofInt k).toModel.unpack = true := hEq
  have hZero : (Float.ofInt 0).toModel.unpack = .zero .positive := rfl
  obtain ⟨-, -, hSame⟩ := (beq_iff_ne_notANumber_and_eq _ _).1 hUnpacked
  by_cases hi0 : i = 0
  · by_cases hk0 : k = 0
    · rw [hi0, hk0]
    · obtain ⟨m, e, h, hUnpack, -⟩ := unpack_ofInt hk0 hk
      rw [hi0, hZero, hUnpack] at hSame
      simp at hSame
  · obtain ⟨m, e, h, hUnpack, hConverts⟩ := unpack_ofInt hi0 (by omega)
    by_cases hk0 : k = 0
    · rw [hk0, hZero, hUnpack] at hSame
      simp at hSame
    · obtain ⟨m', e', h', hUnpack', hConverts'⟩ := unpack_ofInt hk0 hk
      rw [hUnpack, hUnpack'] at hSame
      simp only [UnpackedFloat.finite.injEq, reduceCtorEq, and_false, or_false] at hSame
      obtain ⟨hSign, rfl, rfl⟩ := hSame
      have hAbs := hConverts.unique hConverts' hi (Int.natAbs_pos.2 hi0)
      exact eq_of_signOf_of_natAbs hSign hAbs

end DocGraph.Decimal
