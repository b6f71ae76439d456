import DocGraph.Decimal.Layout
import DocGraph.Decimal.Read
import DocGraph.Proofs.Equality
import DocGraph.Proofs.Midpoints
import DocGraph.Yaml.Key

/-!
# DocGraph: a double is known by its text

A layout decides where the point goes and whether there is an exponent, and none of its choices
touches the number that is written: read as a decimal fraction, the text of a double has the value
of its shortest digits. So two doubles with one text have digits of one value, and are one. A text
that is no number is one of two words, and these are told from numbers by how they begin.

* `numberOf`: how a text is read as a decimal fraction with an exponent.
* `spells_positional` / `spells_scientific`: the two ways to write digits.
* `Spells.numberOf_eq`: what is written is the value of the digits.
* `float_injective`: different doubles have different texts.
* `sameNumeral_of_numeral_eq`: the same of the numbers of a YAML document, whole or not.
-/

namespace DocGraph.Decimal

/-! ## Reading decimal fractions -/

/-- The number that digits with a point among them stand for. -/
def mantissaOf (s : List Char) : ℚ :=
  Nat.ofDigitChars 10 (s.filter (· ≠ '.')) 0 / 10 ^ (s.dropWhile (· ≠ '.')).tail.length

/-- The number that such digits stand for, with an exponent behind an `e`. -/
def numberOf (s : List Char) : ℚ :=
  mantissaOf (s.takeWhile (· ≠ 'e')) * 10 ^ (integer? (s.dropWhile (· ≠ 'e')).tail).getD 0

/-- Digits with a point in front of the second part, if there is one. -/
def withPoint (whole fraction : List Char) : List Char :=
  whole ++ if fraction = [] then [] else '.' :: fraction

section Reading

variable {whole fraction s : List Char}

theorem forall_ne {c : Char} (hc : c ∉ s) : ∀ d ∈ s, decide (d ≠ c) = true :=
  fun _ hd => decide_eq_true fun hEq => hc (hEq ▸ hd)

theorem mantissaOf_withPoint (hWhole : '.' ∉ whole) (hFraction : '.' ∉ fraction) :
    mantissaOf (withPoint whole fraction) =
      Nat.ofDigitChars 10 (whole ++ fraction) 0 / 10 ^ fraction.length := by
  rw [mantissaOf, withPoint]
  by_cases hNone : fraction = []
  · rw [if_pos hNone, hNone, List.append_nil, List.filter_eq_self.2 (forall_ne hWhole),
      List.dropWhile_eq_nil_iff.2 (forall_ne hWhole), List.tail_nil]
  · rw [if_neg hNone, List.filter_append, List.filter_eq_self.2 (forall_ne hWhole),
      List.filter_cons_of_neg (by simp), List.filter_eq_self.2 (forall_ne hFraction),
      List.dropWhile_append_of_pos (forall_ne hWhole), List.dropWhile_cons_of_neg (by simp),
      List.tail_cons]

theorem numberOf_mantissa (hs : 'e' ∉ s) : numberOf s = mantissaOf s := by
  have hEmpty : integer? [] = none := rfl
  rw [numberOf, List.takeWhile_eq_self_iff.2 (forall_ne hs),
    List.dropWhile_eq_nil_iff.2 (forall_ne hs), List.tail_nil, hEmpty, Option.getD_none, zpow_zero,
    mul_one]

theorem numberOf_scientific (hs : 'e' ∉ s) (exponent : List Char) :
    numberOf (s ++ 'e' :: exponent) = mantissaOf s * 10 ^ (integer? exponent).getD 0 := by
  rw [numberOf, List.takeWhile_append_of_pos (forall_ne hs),
    List.takeWhile_cons_of_neg (by simp), List.append_nil,
    List.dropWhile_append_of_pos (forall_ne hs), List.dropWhile_cons_of_neg (by simp),
    List.tail_cons]

end Reading

section ToDigits

variable {n : Nat}

theorem isDigit_of_mem_toDigits : ∀ c ∈ Nat.toDigits 10 n, c.isDigit = true :=
  fun _ hc => Nat.isDigit_of_mem_toDigits (by decide) (by decide) hc

/-- Digits are read as the number that they were written for, behind any sign. -/
theorem integer?_toDigits (n : Nat) :
    integer? (Nat.toDigits 10 n) = some (n : Int) ∧
      integer? ('-' :: Nat.toDigits 10 n) = some (-(n : Int)) ∧
      integer? ('+' :: Nat.toDigits 10 n) = some (n : Int) := by
  have hNonempty : (Nat.toDigits 10 n).isEmpty = false := by
    simp [Nat.toDigits_ne_nil]
  have hDigits : (Nat.toDigits 10 n).all Char.isDigit = true :=
    List.all_eq_true.2 isDigit_of_mem_toDigits
  have hValue : Nat.ofDigitChars 10 (Nat.toDigits 10 n) 0 = n := Nat.ofDigitChars_ten_toDigits
  have hSign : ∀ c rest, c.isDigit = false → Nat.toDigits 10 n ≠ c :: rest := by
    intro c rest hc hEq
    rw [isDigit_of_mem_toDigits c (hEq ▸ List.mem_cons_self)] at hc
    contradiction
  refine ⟨?_, ?_, ?_⟩
  · rw [integer?]
    · simp [hNonempty, hDigits, hValue]
    · exact fun rest hEq => hSign _ rest (by decide) hEq
    · exact fun rest hEq => hSign _ rest (by decide) hEq
  · simp [integer?, hNonempty, hDigits, hValue]
  · simp [integer?, hNonempty, hDigits, hValue]

end ToDigits

/-! ## Layouts -/

/-- How a number is written: digits, and perhaps a point, more digits and an exponent. -/
structure Spells (whole fraction exponent : List Char) (q : ℚ) : Prop where
  nonempty : whole ≠ []
  digits : ∀ c ∈ whole ++ fraction, c.isDigit = true
  signed : ∀ c ∈ exponent, c.isDigit = true ∨ c = '-' ∨ c = '+'
  value : (Nat.ofDigitChars 10 (whole ++ fraction) 0 : ℚ) / 10 ^ fraction.length *
    10 ^ (integer? exponent).getD 0 = q

/-- The digits of a number, followed by an exponent if there is one. -/
def spelling (whole fraction exponent : List Char) : List Char :=
  withPoint whole fraction ++ if exponent = [] then [] else 'e' :: exponent

section Spells

variable {whole fraction exponent : List Char} {q : ℚ}

theorem Spells.not_mem (hSpells : Spells whole fraction exponent q) {c : Char}
    (hc : c.isDigit = false) : c ∉ whole ∧ c ∉ fraction := by
  rw [← not_or, ← List.mem_append]
  intro hMem
  rw [hSpells.digits c hMem] at hc
  contradiction

theorem Spells.numberOf_eq (hSpells : Spells whole fraction exponent q) :
    numberOf (spelling whole fraction exponent) = q := by
  obtain ⟨hWhole, hFraction⟩ := hSpells.not_mem (c := '.') (by decide)
  have hMark : 'e' ∉ withPoint whole fraction := by
    obtain ⟨hLeft, hRight⟩ := hSpells.not_mem (c := 'e') (by decide)
    rw [withPoint, List.mem_append]
    split <;> simp [hLeft, hRight]
  rw [← hSpells.value, spelling]
  split
  · rename_i hNone
    have hEmpty : integer? [] = none := rfl
    rw [List.append_nil, numberOf_mantissa hMark, mantissaOf_withPoint hWhole hFraction, hNone,
      hEmpty, Option.getD_none, zpow_zero, mul_one]
  · rw [numberOf_scientific hMark, mantissaOf_withPoint hWhole hFraction]

/-- What is written begins with a digit. -/
theorem Spells.exists_head (hSpells : Spells whole fraction exponent q) :
    ∃ c rest, spelling whole fraction exponent = c :: rest ∧ c.isDigit = true := by
  obtain ⟨c, rest, rfl⟩ := List.exists_cons_of_ne_nil hSpells.nonempty
  exact ⟨c, _, rfl, hSpells.digits c (by simp)⟩

theorem Spells.of_mem (hSpells : Spells whole fraction exponent q) {c : Char}
    (hc : c ∈ spelling whole fraction exponent) :
    c.isDigit = true ∨ c ∈ ['.', 'e', '-', '+'] := by
  rw [spelling, withPoint] at hc
  rcases List.mem_append.1 hc with hc | hc
  · rcases List.mem_append.1 hc with hc | hc
    · exact .inl (hSpells.digits c (List.mem_append_left _ hc))
    · split at hc
      · contradiction
      · rcases List.mem_cons.1 hc with rfl | hc
        · exact .inr (by simp)
        · exact .inl (hSpells.digits c (List.mem_append_right _ hc))
  · split at hc
    · contradiction
    · rcases List.mem_cons.1 hc with rfl | hc
      · exact .inr (by simp)
      · rcases hSpells.signed c hc with hDigit | rfl | rfl
        · exact .inl hDigit
        · exact .inr (by simp)
        · exact .inr (by simp)

end Spells

/-- A whole number is written as its digits and zeros, with a point and a zero behind them or not. -/
theorem spells_whole {d : Digits} (hExponent : 0 ≤ d.exponent) (pointed : Bool) :
    ∃ whole fraction, Spells whole fraction [] d.value ∧ (pointed = true → fraction ≠ []) ∧
      (d.positional pointed).toList = spelling whole fraction [] := by
  obtain ⟨k, hk⟩ : ∃ k : Nat, d.exponent = k := ⟨_, (Int.toNat_of_nonneg hExponent).symm⟩
  have hEmpty : integer? [] = none := rfl
  have hZero : (".0" : String).toList = ['.', '0'] := by decide
  have hValue : Nat.ofDigitChars 10 (Nat.toDigits 10 d.digits ++ List.replicate k '0') 0 =
      10 ^ k * d.digits := by
    rw [Nat.ofDigitChars_append, Nat.ofDigitChars_ten_toDigits, Nat.ofDigitChars_replicate_zero]
  refine ⟨Nat.toDigits 10 d.digits ++ List.replicate k '0', if pointed then ['0'] else [],
    ⟨?_, ?_, by simp, ?_⟩, ?_, ?_⟩
  · simp [Nat.toDigits_ne_nil]
  · intro c hc
    simp only [List.mem_append, List.mem_replicate] at hc
    rcases hc with (hc | ⟨-, rfl⟩) | hc
    · exact isDigit_of_mem_toDigits c hc
    · rfl
    · split at hc
      · rw [List.mem_singleton.1 hc]
        rfl
      · contradiction
  · rw [Nat.ofDigitChars_append, hValue, Digits.value, hk, zpow_natCast, hEmpty,
      Option.getD_none, zpow_zero, mul_one]
    cases pointed with
    | false =>
      simp
      ring
    | true =>
      simp [Nat.ofDigitChars_cons]
      ring
  · simp
  · dsimp only [Digits.positional]
    rw [if_pos hExponent, String.toList_append, String.toList_ofList, hk, Int.toNat_natCast,
      spelling, withPoint]
    cases pointed <;> simp [hZero]

/-- Any other number has the point among its digits, of which enough zeros stand in front. -/
theorem spells_fraction {d : Digits} (hExponent : ¬ 0 ≤ d.exponent) (pointed : Bool) :
    ∃ whole fraction, Spells whole fraction [] d.value ∧ fraction ≠ [] ∧
      (d.positional pointed).toList = spelling whole fraction [] := by
  have hEmpty : integer? [] = none := rfl
  obtain ⟨places, hPlaces⟩ : ∃ places : Nat, d.exponent = -places :=
    ⟨(-d.exponent).toNat, by omega⟩
  obtain ⟨padded, hPadded⟩ : ∃ padded, List.replicate
      (places + 1 - (Nat.toDigits 10 d.digits).length) '0' ++ Nat.toDigits 10 d.digits =
      padded := ⟨_, rfl⟩
  have hLength : places + 1 ≤ padded.length := by
    rw [← hPadded, List.length_append, List.length_replicate]
    omega
  have hFraction : (padded.drop (padded.length - places)).length = places := by
    rw [List.length_drop]
    omega
  have hSome : padded.drop (padded.length - places) ≠ [] := by
    rw [← List.length_pos_iff, hFraction]
    omega
  refine ⟨padded.take (padded.length - places), padded.drop (padded.length - places),
    ⟨?_, ?_, by simp, ?_⟩, hSome, ?_⟩
  · rw [← List.length_pos_iff, List.length_take]
    omega
  · rw [List.take_append_drop, ← hPadded]
    intro c hc
    rcases List.mem_append.1 hc with hc | hc
    · rw [(List.mem_replicate.1 hc).2]
      rfl
    · exact isDigit_of_mem_toDigits c hc
  · have hValue : Nat.ofDigitChars 10 padded 0 = d.digits := by
      rw [← hPadded, Nat.ofDigitChars_append, Nat.ofDigitChars_replicate_zero, Nat.mul_zero,
        Nat.ofDigitChars_ten_toDigits]
    rw [List.take_append_drop, hValue, hFraction, Digits.value, hPlaces, zpow_neg, zpow_natCast,
      hEmpty, Option.getD_none, zpow_zero, mul_one, div_eq_mul_inv]
  · dsimp only [Digits.positional]
    rw [if_neg hExponent, String.toList_ofList, hPlaces, spelling, withPoint, if_neg hSome,
      if_pos rfl, List.append_nil]
    simp only [neg_neg, Int.toNat_natCast, hPadded]

theorem spells_positional (d : Digits) (pointed : Bool) :
    ∃ whole fraction, Spells whole fraction [] d.value ∧ (pointed = true → fraction ≠ []) ∧
      (d.positional pointed).toList = spelling whole fraction [] := by
  by_cases hExponent : 0 ≤ d.exponent
  · exact spells_whole hExponent pointed
  · obtain ⟨whole, fraction, hSpells, hSome, hText⟩ := spells_fraction hExponent pointed
    exact ⟨whole, fraction, hSpells, fun _ => hSome, hText⟩

theorem spells_scientific (d : Digits) (plus : Bool) :
    ∃ whole fraction exponent, Spells whole fraction exponent d.value ∧ exponent ≠ [] ∧
      (d.scientific plus).toList = spelling whole fraction exponent := by
  obtain ⟨c, rest, hCons⟩ :=
    List.exists_cons_of_ne_nil (Nat.toDigits_ne_nil (b := 10) (n := d.digits))
  obtain ⟨e, he⟩ : ∃ e, d.exponent + (Nat.toDigits 10 d.digits).length - 1 = e := ⟨_, rfl⟩
  obtain ⟨sign, hSign⟩ : ∃ sign : String,
      (if e < 0 then "-" else if plus then "+" else "") = sign := ⟨_, rfl⟩
  have hRead : integer? (sign.toList ++ Nat.toDigits 10 e.natAbs) = some e := by
    obtain ⟨hPlain, hMinus, hPlus⟩ := integer?_toDigits e.natAbs
    rw [← hSign]
    split
    · refine hMinus.trans (congrArg some ?_)
      omega
    · split
      · refine hPlus.trans (congrArg some ?_)
        omega
      · refine hPlain.trans (congrArg some ?_)
        omega
  refine ⟨[c], rest, sign.toList ++ Nat.toDigits 10 e.natAbs, ⟨by simp, ?_, ?_, ?_⟩, ?_, ?_⟩
  · rw [List.singleton_append, ← hCons]
    exact isDigit_of_mem_toDigits
  · intro x hx
    rcases List.mem_append.1 hx with hx | hx
    · have hMinus : ("-" : String).toList = ['-'] := by decide
      have hPlus : ("+" : String).toList = ['+'] := by decide
      rw [← hSign] at hx
      split_ifs at hx <;> simp_all
    · exact .inl (isDigit_of_mem_toDigits x hx)
  -- the exponent counts from the first digit, the value from the last one
  · have hLength : ((Nat.toDigits 10 d.digits).length : Int) = rest.length + 1 := by
      rw [hCons]
      rfl
    have hExponent : d.exponent = e - rest.length := by omega
    rw [List.singleton_append, ← hCons, Nat.ofDigitChars_ten_toDigits, hRead, Option.getD_some,
      Digits.value, hExponent, zpow_sub₀ (by norm_num), zpow_natCast]
    ring
  · simp [Nat.toDigits_ne_nil]
  · have hExponent : (toString e.natAbs).toList = Nat.toDigits 10 e.natAbs := by
      rw [Nat.toString_eq_ofList_toDigits, String.toList_ofList]
    have hSome : sign.toList ++ Nat.toDigits 10 e.natAbs ≠ [] := by
      simp [Nat.toDigits_ne_nil]
    rw [Digits.scientific, spelling, if_neg hSome, withPoint]
    simp only [he, hSign, String.toList_append, String.toList_ofList, hExponent]
    rw [hCons]
    cases rest <;> simp

theorem spells_digits (l : Layout) (d : Digits) :
    ∃ whole fraction exponent, Spells whole fraction exponent d.value ∧
      (l.pointed = true → fraction ≠ [] ∨ exponent ≠ []) ∧
      (l.digits d).toList = spelling whole fraction exponent := by
  obtain ⟨whole, fraction, hPositional, hPoint, hText⟩ := spells_positional d l.pointed
  obtain ⟨whole', fraction', exponent, hScientific, hMark, hText'⟩ := spells_scientific d l.plus
  rw [Layout.digits]
  split
  · exact ⟨_, _, _, hPositional, fun hPointed => .inl (hPoint hPointed), hText⟩
  · split
    · exact ⟨_, _, _, hPositional, fun hPointed => .inl (hPoint hPointed), hText⟩
    · exact ⟨_, _, _, hScientific, fun _ => .inr hMark, hText'⟩

/-- The words for what is no number are different, and begin like no number. -/
structure Layout.WordsApart (l : Layout) : Prop where
  ne : l.nan ≠ l.infinity
  head : ∀ word ∈ [l.nan, l.infinity], ∃ c rest, word.toList = c :: rest ∧ c.isDigit = false ∧
    c ≠ '-'

/-- The text of a double without its sign. -/
def Layout.unsigned (l : Layout) : Datum → String
  | .nan => l.nan
  | .infinite _ => l.infinity
  | .finite b => l.digits (shortest l.tie b)

def Datum.isNegative : Datum → Bool
  | .nan => false
  | .infinite negative => negative
  | .finite b => b.negative

theorem float_eq (l : Layout) (x : Float) :
    l.float x = (if (Datum.ofFloat x).isNegative then "-" else "") ++
      l.unsigned (Datum.ofFloat x) := by
  rw [Layout.float]
  cases Datum.ofFloat x with
  | nan => exact (String.empty_append).symm
  | infinite | finite => rfl

section Texts

variable {l : Layout}

theorem exists_head_digits (l : Layout) (d : Digits) :
    ∃ c rest, (l.digits d).toList = c :: rest ∧ c.isDigit = true := by
  obtain ⟨whole, fraction, exponent, hSpells, -, hText⟩ := spells_digits l d
  rw [hText]
  exact hSpells.exists_head

/-- No text begins with a sign of its own. -/
theorem exists_head_unsigned (hl : l.WordsApart) (datum : Datum) :
    ∃ c rest, (l.unsigned datum).toList = c :: rest ∧ c ≠ '-' := by
  cases datum with
  | nan =>
    obtain ⟨c, rest, hWord, -, hc⟩ := hl.head l.nan (by simp)
    exact ⟨c, rest, hWord, hc⟩
  | infinite =>
    obtain ⟨c, rest, hWord, -, hc⟩ := hl.head l.infinity (by simp)
    exact ⟨c, rest, hWord, hc⟩
  | finite b =>
    obtain ⟨c, rest, hDigits, hc⟩ := exists_head_digits l (shortest l.tie b)
    refine ⟨c, rest, hDigits, ?_⟩
    rintro rfl
    contradiction

/-- Behind equal signs stand equal texts. -/
theorem unsigned_eq_of_float_eq (hl : l.WordsApart) {x y : Float} (hxy : l.float x = l.float y) :
    (Datum.ofFloat x).isNegative = (Datum.ofFloat y).isNegative ∧
      l.unsigned (Datum.ofFloat x) = l.unsigned (Datum.ofFloat y) := by
  obtain ⟨c, rest, hx, hc⟩ := exists_head_unsigned hl (Datum.ofFloat x)
  obtain ⟨d, rest', hy, hd⟩ := exists_head_unsigned hl (Datum.ofFloat y)
  have hLists := congrArg String.toList hxy
  rw [float_eq, float_eq, String.toList_append, String.toList_append, hx, hy] at hLists
  rw [← String.toList_inj, hx, hy]
  have hMinus : ("-" : String).toList = ['-'] := by decide
  cases hLeft : (Datum.ofFloat x).isNegative <;> cases hRight : (Datum.ofFloat y).isNegative <;>
    simp [hLeft, hRight, hMinus] at hLists ⊢
  · exact hLists
  -- a sign on one side only would be the first character of the other side
  · exact hc hLists.1
  · exact hd hLists.1.symm
  · exact hLists

theorem digits_ne_word (hl : l.WordsApart) {word : String} (hWord : word ∈ [l.nan, l.infinity])
    (d : Digits) : l.digits d ≠ word := by
  rintro rfl
  obtain ⟨c, rest, hText, hc⟩ := exists_head_digits l d
  obtain ⟨c', rest', hText', hc', -⟩ := hl.head _ hWord
  rw [hText] at hText'
  cases hText'
  rw [hc] at hc'
  contradiction

/-- Different doubles have different texts. -/
theorem float_injective (hl : l.WordsApart) : Function.Injective l.float := by
  intro x y hxy
  obtain ⟨hSign, hText⟩ := unsigned_eq_of_float_eq hl hxy
  have hNan : ∀ d, l.digits d ≠ l.nan := digits_ne_word hl (by simp)
  have hInfinity : ∀ d, l.digits d ≠ l.infinity := digits_ne_word hl (by simp)
  cases hx : Datum.ofFloat x with
  | nan =>
    cases hy : Datum.ofFloat y with
    | nan => exact ofFloat_injective (hx.trans hy.symm)
    | infinite =>
      rw [hx, hy] at hText
      exact absurd hText hl.ne
    | finite c =>
      rw [hx, hy] at hText
      exact absurd hText.symm (hNan _)
  | infinite negative =>
    cases hy : Datum.ofFloat y with
    | nan =>
      rw [hx, hy] at hText
      exact absurd hText.symm hl.ne
    | infinite negative' =>
      rw [hx, hy] at hSign
      refine ofFloat_injective (hx.trans (Eq.trans ?_ hy.symm))
      exact congrArg Datum.infinite hSign
    | finite c =>
      rw [hx, hy] at hText
      exact absurd hText.symm (hInfinity _)
  | finite b =>
    cases hy : Datum.ofFloat y with
    | nan =>
      rw [hx, hy] at hText
      exact absurd hText (hNan _)
    | infinite =>
      rw [hx, hy] at hText
      exact absurd hText (hInfinity _)
    | finite c =>
      rw [hx, hy] at hSign hText
      obtain ⟨_, _, _, hb, -, hbText⟩ := spells_digits l (shortest l.tie b)
      obtain ⟨_, _, _, hc, -, hcText⟩ := spells_digits l (shortest l.tie c)
      -- the texts are read as the values of the digits, which tell the doubles apart
      have hDigits : l.digits (shortest l.tie b) = l.digits (shortest l.tie c) := hText
      have hValue : (shortest l.tie b).value = (shortest l.tie c).value := by
        rw [← hb.numberOf_eq, ← hbText, hDigits, hcText, hc.numberOf_eq]
      exact eq_of_value_shortest hx hy hSign hValue

end Texts

end DocGraph.Decimal

/-! ## Numbers of a YAML document -/

namespace DocGraph.Yaml

/-- The characters of nulls, booleans and numbers. -/
def isBareChar (c : Char) : Bool :=
  c.isAlphanum || c = '.' || c = '-' || c = '+'

theorem wordsApart_floatLayout : floatLayout.WordsApart where
  ne := by decide
  head := by
    intro word hWord
    simp only [List.mem_cons, List.not_mem_nil, or_false] at hWord
    rcases hWord with rfl | rfl
    · exact ⟨'.', ['n', 'a', 'n'], by decide, by decide, by decide⟩
    · exact ⟨'.', ['i', 'n', 'f'], by decide, by decide, by decide⟩

/-- The text of a number: perhaps a sign, then what begins like no other scalar. -/
structure IsNumberText (s sign body : List Char) : Prop where
  eq : s = sign ++ body
  sign : sign = [] ∨ sign = ['-']
  head : ∃ c rest, body = c :: rest ∧ c ∉ ['n', 't', 'f', '-']
  bare : ∀ c ∈ body, isBareChar c = true

theorem isBareChar_of_isDigit {c : Char} (hc : c.isDigit = true) : isBareChar c = true := by
  simp [isBareChar, Char.isAlphanum, hc]

theorem not_mem_of_isDigit {c : Char} (hc : c.isDigit = true) : c ∉ ['n', 't', 'f', '-'] := by
  simp only [List.mem_cons, List.not_mem_nil, or_false, not_or]
  refine ⟨?_, ?_, ?_, ?_⟩ <;> (rintro rfl; contradiction)

/-- The text of a whole number: perhaps a sign, and digits. -/
theorem toList_toString_int (n : Int) :
    (toString n).toList = Nat.toDigits 10 n.natAbs ∨
      (toString n).toList = '-' :: Nat.toDigits 10 n.natAbs := by
  cases n with
  | ofNat m => exact .inl (by simp [Int.toString_eq_repr, Int.repr, Nat.repr])
  | negSucc m => exact .inr (by simp [Int.toString_eq_repr, Int.repr, Nat.repr])

theorem isNumberText_integer (n : Int) :
    ∃ sign body, IsNumberText (toString n).toList sign body := by
  have hHead : ∃ c rest, Nat.toDigits 10 n.natAbs = c :: rest ∧ c ∉ ['n', 't', 'f', '-'] := by
    obtain ⟨c, rest, hDigits⟩ :=
      List.exists_cons_of_ne_nil (Nat.toDigits_ne_nil (b := 10) (n := n.natAbs))
    have hc := Decimal.isDigit_of_mem_toDigits c (hDigits ▸ List.mem_cons_self)
    exact ⟨c, rest, hDigits, not_mem_of_isDigit hc⟩
  have hBare : ∀ c ∈ Nat.toDigits 10 n.natAbs, isBareChar c = true := fun c hc =>
    isBareChar_of_isDigit (Decimal.isDigit_of_mem_toDigits c hc)
  rcases toList_toString_int n with hText | hText
  · exact ⟨[], _, hText, .inl rfl, hHead, hBare⟩
  · exact ⟨['-'], _, hText, .inr rfl, hHead, hBare⟩

theorem isNumberText_float (x : Float) :
    ∃ sign body, IsNumberText (floatLayout.float x).toList sign body := by
  have hBody : ∃ c rest, (floatLayout.unsigned (Decimal.Datum.ofFloat x)).toList = c :: rest ∧
      c ∉ ['n', 't', 'f', '-'] ∧ ∀ d ∈ c :: rest, isBareChar d = true := by
    cases Decimal.Datum.ofFloat x with
    | nan => exact ⟨'.', ['n', 'a', 'n'], by decide, by decide, by simp [isBareChar]⟩
    | infinite =>
      have hWord : (".inf" : String).toList = ['.', 'i', 'n', 'f'] := by decide
      exact ⟨'.', ['i', 'n', 'f'], hWord, by decide, by simp [isBareChar]⟩
    | finite b =>
      obtain ⟨whole, fraction, exponent, hSpells, -, hText⟩ :=
        Decimal.spells_digits floatLayout (Decimal.shortest floatLayout.tie b)
      obtain ⟨c, rest, hCons, hc⟩ := hSpells.exists_head
      refine ⟨c, rest, hText.trans hCons, not_mem_of_isDigit hc, fun d hd => ?_⟩
      rcases hSpells.of_mem (hCons ▸ hd) with hDigit | hMark
      · exact isBareChar_of_isDigit hDigit
      · simp only [List.mem_cons, List.not_mem_nil, or_false] at hMark
        rcases hMark with rfl | rfl | rfl | rfl <;> decide
  obtain ⟨c, rest, hBody, hc, hBare⟩ := hBody
  refine ⟨if (Decimal.Datum.ofFloat x).isNegative then ['-'] else [],
    (floatLayout.unsigned (Decimal.Datum.ofFloat x)).toList, ?_, ?_, ⟨c, rest, hBody, hc⟩, ?_⟩
  · rw [Decimal.float_eq, String.toList_append]
    split <;> rfl
  · split
    · exact .inr rfl
    · exact .inl rfl
  · rw [hBody]
    exact hBare

theorem isNumberText_numeral (n : Numeral) :
    ∃ sign body, IsNumberText (numeral n).toList sign body := by
  cases n with
  | integer n => exact isNumberText_integer n
  | float x => exact isNumberText_float x

/-- No whole number is written like a double. -/
theorem toString_ne_float (n : Int) (x : Float) : toString n ≠ floatLayout.float x := by
  intro hEq
  have hOther : ∃ c ∈ (floatLayout.float x).toList, c.isDigit = false ∧ c ≠ '-' := by
    have hBody : ∃ c ∈ (floatLayout.unsigned (Decimal.Datum.ofFloat x)).toList,
        c.isDigit = false ∧ c ≠ '-' := by
      cases Decimal.Datum.ofFloat x with
      | nan => exact ⟨'.', by decide, by decide⟩
      | infinite =>
        have hWord : '.' ∈ (".inf" : String).toList := by decide
        exact ⟨'.', hWord, by decide⟩
      | finite b =>
        obtain ⟨whole, fraction, exponent, -, hPoint, hText⟩ :=
          Decimal.spells_digits floatLayout (Decimal.shortest floatLayout.tie b)
        rw [Decimal.Layout.unsigned, hText, Decimal.spelling, Decimal.withPoint]
        rcases hPoint rfl with hSome | hSome
        · exact ⟨'.', by simp [hSome], by decide⟩
        · exact ⟨'e', by simp [hSome], by decide⟩
    obtain ⟨c, hMem, hc⟩ := hBody
    rw [Decimal.float_eq, String.toList_append]
    exact ⟨c, List.mem_append_right _ hMem, hc⟩
  obtain ⟨c, hMem, hDigit, hMinus⟩ := hOther
  rw [← hEq] at hMem
  have hDigits : c ∈ Nat.toDigits 10 n.natAbs := by
    rcases toList_toString_int n with hText | hText
    · exact hText ▸ hMem
    · exact (List.mem_cons.1 (hText ▸ hMem)).resolve_left hMinus
  rw [Decimal.isDigit_of_mem_toDigits c hDigits] at hDigit
  contradiction

theorem sameNumeral_of_numeral_eq {m n : Numeral} (hText : numeral m = numeral n) :
    sameNumeral m n = true := by
  cases m with
  | integer m =>
    cases n with
    | integer n =>
      have hEq : m = n := Int.repr_inj.1 hText
      rw [hEq, sameNumeral, beq_self_eq_true]
    | float y => exact absurd hText (toString_ne_float m y)
  | float x =>
    cases n with
    | integer n => exact absurd hText.symm (toString_ne_float n x)
    | float y =>
      have hEq : x = y := Decimal.float_injective wordsApart_floatLayout hText
      rw [hEq, sameNumeral, Number.float_beq_self]
      cases y.isNaN <;> rfl

end DocGraph.Yaml
