/-!
# DocGraph: positions in arrays

An array owns one field per position, named by the position in decimal: no sign, no leading
zero, and below `2 ^ 64`, the size of a machine word. Every other spelling names no field.

* `parse?_toString`: the decimal text of a position reads as that position.
-/

namespace DocGraph.Index

/-- Positions are below this bound. -/
def bound : Nat := UInt64.size

/-- Reads the canonical decimal text of a position. -/
def parse? (token : String) : Option Nat :=
  let digits := token.toList
  if digits.isEmpty || !digits.all Char.isDigit then
    none
  else if 1 < digits.length && digits.head? == some '0' then
    none
  else
    let n := Nat.ofDigitChars 10 digits 0
    if n < bound then some n else none

/-- Only the number zero is written with a zero in front. -/
theorem head?_toDigits_ne_zero {n : Nat} (hn : 0 < n) : (Nat.toDigits 10 n).head? ≠ some '0' := by
  induction n using Nat.strongRecOn with
  | ind n ih =>
    rw [Nat.toDigits_eq_if (by decide)]
    split
    · rename_i hlt
      have hSmall : ∀ n < 10, 0 < n → [Nat.digitChar n].head? ≠ some '0' := by decide
      exact hSmall n hlt hn
    -- the first digit is that of a tenth of the number
    · have hHead := ih (n / 10) (by omega) (by omega)
      obtain ⟨c, tail, hCons⟩ :=
        List.exists_cons_of_ne_nil (Nat.toDigits_ne_nil (n := n / 10) (b := 10))
      rw [hCons] at hHead ⊢
      exact hHead

theorem parse?_toString {n : Nat} (hn : n < bound) : parse? (toString n) = some n := by
  have hDigits : (Nat.toDigits 10 n).all Char.isDigit = true :=
    List.all_eq_true.2 fun c hc => Nat.isDigit_of_mem_toDigits (by decide) (by decide) hc
  have hZero : ¬ (1 < (Nat.toDigits 10 n).length ∧ (Nat.toDigits 10 n).head? = some '0') := by
    rintro ⟨hLength, hHead⟩
    cases n with
    | zero => simp [Nat.toDigits_zero] at hLength
    | succ n => exact head?_toDigits_ne_zero n.succ_pos hHead
  have hValue : Nat.ofDigitChars 10 (Nat.toDigits 10 n) 0 = n :=
    Nat.ofDigitChars_toDigits (by decide) (by decide)
  simp [parse?, hDigits, hZero, hValue, hn]

end DocGraph.Index
