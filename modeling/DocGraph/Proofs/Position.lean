import DocGraph.Index
import DocGraph.Value
import Mathlib

/-!
# DocGraph: positions and their texts

A position is written in one way and read from no other. Reading looks at the characters, at the
front and at the number, each by a check of its own, and what passes all of them is the text of a
position: digits without a leading zero are those of their number, however many they are. So what is
refused can be listed without looking at how reading goes about it.

* `toDigits_ofDigitChars` / `toString_ofDigitChars`: digits without a leading zero are those of their
  number, and a text of such digits is that of the number.
* `refused_or_text` / `Refused.le_of_text`: a token is either refused or the text of a position.
* `position_iff_text`: reading and writing positions are inverse to each other.
-/

namespace DocGraph.Index

/-! ## Digits and their number -/

theorem digitChar_sub {c : Char} (hc : c.isDigit = true) :
    c.toNat - '0'.toNat < 10 ∧ Nat.digitChar (c.toNat - '0'.toNat) = c := by
  have hZero : '0'.toNat = 48 := rfl
  have hNine : '9'.toNat = 57 := rfl
  obtain ⟨hLow, hHigh⟩ := Char.isDigit_iff_toNat.1 hc
  refine ⟨by omega, Char.toNat_inj.1 ?_⟩
  rw [Nat.toNat_digitChar_of_lt_ten (by omega)]
  omega

/-- Digits without a leading zero are those of their number. -/
theorem toDigits_ofDigitChars {digits : List Char} (hNil : digits ≠ [])
    (hDigits : ∀ c ∈ digits, c.isDigit = true)
    (hLead : 1 < digits.length → digits.head? ≠ some '0') :
    Nat.toDigits 10 (Nat.ofDigitChars 10 digits 0) = digits := by
  -- from the back: the last digit is the remainder by ten, and those before it are the quotient
  induction digits using List.reverseRecOn with
  | nil => contradiction
  | append_singleton front c ih =>
    obtain ⟨hLast, hChar⟩ := digitChar_sub (hDigits c (by simp))
    rw [Nat.ofDigitChars_append, Nat.ofDigitChars_cons, Nat.ofDigitChars_nil]
    by_cases hFront : front = []
    · rw [hFront, Nat.ofDigitChars_nil, Nat.mul_zero, Nat.zero_add, Nat.toDigits_of_lt_base hLast,
        hChar]
      rfl
    · have hHead : (front ++ [c]).head? = front.head? := List.head?_append_of_ne_nil _ hFront
      have hLength : 1 < (front ++ [c]).length := by
        have := List.length_pos_of_ne_nil hFront
        rw [List.length_append, List.length_singleton]
        omega
      have hNoZero : front.head? ≠ some '0' := hHead ▸ hLead hLength
      have hQuotient := ih hFront (fun d hd => hDigits d (by simp [hd])) fun _ => hNoZero
      -- the quotient is not zero, for zero has the digit that does not lead
      have hPos : 0 < Nat.ofDigitChars 10 front 0 := by
        refine Nat.pos_of_ne_zero fun hZero => hNoZero ?_
        rw [← hQuotient, hZero]
        rfl
      rw [← Nat.toDigits_append_toDigits (by omega) hPos hLast, hQuotient,
        Nat.toDigits_of_lt_base hLast, hChar]

/-- So such a text is that of its number. -/
theorem toString_ofDigitChars {token : String} (hNil : token.toList ≠ [])
    (hDigits : ∀ c ∈ token.toList, c.isDigit = true)
    (hLead : 1 < token.toList.length → token.toList.head? ≠ some '0') :
    toString (Nat.ofDigitChars 10 token.toList 0) = token := by
  rw [Nat.toString_eq_ofList_toDigits, toDigits_ofDigitChars hNil hDigits hLead,
    String.ofList_toList]

/-- A text that is read as a position is the text of this position. -/
theorem toString_of_parse? {token : String} {n : Nat} (hParse : parse? token = some n) :
    toString n = token ∧ n < bound := by
  unfold parse? at hParse
  dsimp only at hParse
  split at hParse
  · contradiction
  · rename_i hDigits
    split at hParse
    · contradiction
    · rename_i hLead
      split at hParse
      · rename_i hBound
        obtain rfl := Option.some.inj hParse
        rw [Bool.or_eq_true, not_or, List.isEmpty_iff, Bool.not_eq_true', Bool.not_eq_false,
          List.all_eq_true] at hDigits
        rw [Bool.and_eq_true, decide_eq_true_eq, beq_iff_eq, not_and] at hLead
        exact ⟨toString_ofDigitChars hDigits.1 hDigits.2 hLead, hBound⟩
      · contradiction

/-! ## Tokens that are no positions -/

/-- Why a token names no position: it is empty, or a character is no digit (a sign, a blank, a digit
of another script), or a zero stands in front of others, or the number is too large for a word. -/
inductive Refused : String → Prop
  | empty : Refused ""
  | foreign {token : String} {c : Char} : c ∈ token.toList → c.isDigit = false → Refused token
  | padded {digits : List Char} : digits ≠ [] → Refused (String.ofList ('0' :: digits))
  | large {n : Nat} : 2 ^ 64 ≤ n → Refused (Key.index n).text

/-- A token that is not refused is the text of a position. -/
theorem refused_or_text (token : String) :
    Refused token ∨ ∃ n, n < 2 ^ 64 ∧ token = (Key.index n).text := by
  -- the reasons one after the other, until a row of digits is left whose number counts
  by_cases hNil : token.toList = []
  · rw [String.toList_eq_nil_iff] at hNil
    exact .inl (hNil ▸ .empty)
  by_cases hForeign : ∃ c ∈ token.toList, c.isDigit = false
  · obtain ⟨c, hMem, hc⟩ := hForeign
    exact .inl (.foreign hMem hc)
  obtain ⟨first, digits, hToken⟩ := List.exists_cons_of_ne_nil hNil
  by_cases hPadded : first = '0' ∧ digits ≠ []
  · obtain ⟨rfl, hRest⟩ := hPadded
    rw [← String.ofList_toList (s := token), hToken]
    exact .inl (.padded hRest)
  -- what passes these checks has the digits of its number
  have hDigits : ∀ c ∈ token.toList, c.isDigit = true := by
    intro c hc
    rw [← Bool.not_eq_false]
    exact fun hFalse => hForeign ⟨c, hc, hFalse⟩
  have hLead : 1 < token.toList.length → token.toList.head? ≠ some '0' := by
    intro hLength hHead
    rw [hToken, List.head?_cons, Option.some_inj] at hHead
    rw [hToken, List.length_cons] at hLength
    exact hPadded ⟨hHead, List.ne_nil_of_length_pos (by omega)⟩
  have hText : token = (Key.index (Nat.ofDigitChars 10 token.toList 0)).text :=
    (toString_ofDigitChars hNil hDigits hLead).symm
  rcases Nat.lt_or_ge (Nat.ofDigitChars 10 token.toList 0) (2 ^ 64) with hLt | hGe
  · exact .inr ⟨_, hLt, hText⟩
  · rw [hText]
    exact .inl (.large hGe)

/-- No position has a text that is refused. -/
theorem Refused.le_of_text {token : String} {n : Nat} (h : Refused token)
    (hText : token = (Key.index n).text) : 2 ^ 64 ≤ n := by
  have hList : token.toList = Nat.toDigits 10 n := by
    rw [hText, Key.text, Nat.toString_eq_ofList_toDigits, String.toList_ofList]
  cases h with
  | empty => exact absurd hList.symm Nat.toDigits_ne_nil
  | foreign hMem hc =>
    rw [hList] at hMem
    rw [Nat.isDigit_of_mem_toDigits (by decide) (by decide) hMem] at hc
    contradiction
  | padded hRest =>
    rw [String.toList_ofList] at hList
    -- only zero has a zero in front, and nothing behind it
    rcases Nat.eq_zero_or_pos n with rfl | hPos
    · rw [Nat.toDigits_zero, List.cons.injEq] at hList
      exact absurd hList.2 hRest
    · exact absurd (by rw [← hList, List.head?_cons]) (head?_toDigits_ne_zero hPos)
  | large hGe =>
    obtain rfl := Nat.repr_injective hText
    exact hGe

/-! ## Reading and writing -/

theorem parse?_eq_some_iff {token : String} {n : Nat} :
    parse? token = some n ↔ n < 2 ^ 64 ∧ token = (Key.index n).text := by
  constructor
  · intro hParse
    obtain ⟨hText, hBound⟩ := toString_of_parse? hParse
    exact ⟨hBound, hText.symm⟩
  · rintro ⟨hBound, rfl⟩
    exact parse?_toString hBound

theorem parse?_eq_none_iff {token : String} : parse? token = none ↔ Refused token := by
  constructor
  · intro hNone
    refine (refused_or_text token).resolve_right ?_
    rintro ⟨n, hText⟩
    rw [parse?_eq_some_iff.2 hText] at hNone
    contradiction
  · intro hRefused
    rw [Option.eq_none_iff_forall_ne_some]
    intro n hParse
    obtain ⟨hBound, hText⟩ := parse?_eq_some_iff.1 hParse
    exact absurd (hRefused.le_of_text hText) (Nat.not_le.2 hBound)

/-- A token is read as a position exactly if it is the text of this position, and this fits a word.
It is refused exactly for one of the reasons that there are. So two tokens are read alike only if
they are the same, or if both are refused. -/
theorem position_iff_text (token : String) :
    (∀ n, parse? token = some n ↔ n < 2 ^ 64 ∧ token = (Key.index n).text) ∧
      (parse? token = none ↔ Refused token) ∧
      ∀ other, parse? token = parse? other ↔ token = other ∨ Refused token ∧ Refused other := by
  refine ⟨fun n => parse?_eq_some_iff, parse?_eq_none_iff, fun other => ?_⟩
  constructor
  · intro hSame
    cases hParse : parse? token with
    | none => exact .inr ⟨parse?_eq_none_iff.1 hParse, parse?_eq_none_iff.1 (hSame ▸ hParse)⟩
    | some n =>
      have hText := (parse?_eq_some_iff.1 hParse).2
      have hOther := (parse?_eq_some_iff.1 (hSame ▸ hParse)).2
      exact .inl (hText.trans hOther.symm)
  · rintro (rfl | ⟨hRefused, hOther⟩)
    · rfl
    · rw [parse?_eq_none_iff.2 hRefused, parse?_eq_none_iff.2 hOther]

example : parse? "18446744073709551615" = some (2 ^ 64 - 1) ∧
    ∀ token ∈ ["", "+7", " 7", "07", "٧", "18446744073709551616"], parse? token = none := by
  decide

end DocGraph.Index
