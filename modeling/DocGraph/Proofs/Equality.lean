import DocGraph.Proofs.Bisimulation
import Mathlib

/-!
# DocGraph: deep equality is symmetric, and reflexive but for NaN

Deep equality goes through the fields of the first object and looks their names up in the second,
and it assumes ordered pairs of containers. Neither shows in its answers. They are those of the
largest relation that holds only of values alike, and this relation read backwards is such a
relation too. A value is equal to itself unless it is NaN; a container is equal to itself even if a
NaN is inside, for no container is compared with itself.

* `Number.beq_comm` / `Value.beq_comm` / `Value.beq_self`: the same of equality by value and identity.
* `bisimulation_structuralEq` / `structuralEq_of_bisimulation`: deep equality is the largest
  bisimulation.
* `Bisimulation.flip`: the converse of a bisimulation is one.
* `structuralEq_comm_self`: symmetric, and reflexive but for NaN.
-/

namespace DocGraph

/-! ## Values one by one -/

namespace Number

/-- As soon as one number is a double, both are compared as doubles. -/
theorem beq_eq_toFloat {a b : Number} (hab : a.isInteger = false ∨ b.isInteger = false) :
    (a == b) = (a.toFloat == b.toFloat) := by
  cases a with
  | integer i =>
    cases b with
    | integer j =>
      rw [isInteger, isInteger] at hab
      simp at hab
    | float y => rfl
  | float x => rfl

theorem integers_or_double (a b : Number) :
    (∃ i k, a = .integer i ∧ b = .integer k) ∨ a.isInteger = false ∨ b.isInteger = false := by
  cases a with
  | float x => exact .inr (.inl rfl)
  | integer i =>
    cases b with
    | float y => exact .inr (.inr rfl)
    | integer k => exact .inl ⟨i, k, rfl, rfl⟩

/-- A double is equal to itself unless it is NaN. -/
theorem float_beq_self (x : Float) : (x == x) = !x.isNaN := by
  rw [Bool.eq_iff_iff, Float.beq_self_iff, Float.isNaN_eq_decide_eq_nan]
  simp

theorem beq_comm (a b : Number) : (a == b) = (b == a) := by
  rcases integers_or_double a b with ⟨i, k, rfl, rfl⟩ | hDouble
  · show (i == k) = (k == i)
    exact BEq.comm
  · rw [beq_eq_toFloat hDouble, beq_eq_toFloat hDouble.symm]
    exact BEq.comm

end Number

namespace Value

/-- The value is the number that is equal to no number. -/
def isNaN : Value → Bool
  | .number (.float x) => x.isNaN
  | _ => false

theorem beq_self (v : Value) : (v == v) = !v.isNaN := by
  cases v with
  | number n =>
    cases n with
    | integer i =>
      show (i == i) = true
      exact beq_self_eq_true i
    | float x =>
      show (x == x) = !x.isNaN
      exact Number.float_beq_self x
  | absent | null => rfl
  | bool b => exact beq_self_eq_true b
  | text s => exact beq_self_eq_true s
  | container c => exact beq_self_eq_true c

theorem beq_comm (v w : Value) : (v == w) = (w == v) := by
  cases v with
  | number a =>
    cases w with
    | number b => exact Number.beq_comm a b
    | absent | null | bool | text | container => rfl
  | bool a =>
    cases w with
    | bool b => exact BEq.comm (a := a) (b := b)
    | absent | null | number | text | container => rfl
  | text a =>
    cases w with
    | text b => exact BEq.comm (a := a) (b := b)
    | absent | null | bool | number | container => rfl
  | container a =>
    cases w with
    | container b => exact BEq.comm (a := a) (b := b)
    | absent | null | bool | number | text => rfl
  | absent | null => cases w <;> rfl

end Value

namespace Search

variable {h : Heap} {R S : Value → Value → Prop} {v w : Value}

/-! ## Relations of values alike -/

/-- All that is not two objects or two arrays is alike if it is equal. -/
theorem alike_iff_beq
    (hObjects : ∀ a b, v = .container (.object a) → w = .container (.object b) → False)
    (hArrays : ∀ a b, v = .container (.array a) → w = .container (.array b) → False) :
    Alike h R v w ↔ (v == w) = true := by
  rw [Alike]
  · exact hObjects
  · exact hArrays

theorem Alike.mono (hAlike : Alike h R v w) (hSub : ∀ x y, R x y → S x y) : Alike h S v w := by
  fun_cases Alike h R v w with
  | case1 a b =>
    rcases hAlike with rfl | ⟨hNames, hValues⟩
    · exact .inl rfl
    · exact .inr ⟨hNames, fun name x y hx hy => hSub x y (hValues name x y hx hy)⟩
  | case2 a b =>
    rcases hAlike with rfl | hItems
    · exact .inl rfl
    · exact .inr (hItems.imp hSub)
  | case3 _ _ hObjects hArrays =>
    exact (alike_iff_beq hObjects hArrays).2 ((alike_iff_beq hObjects hArrays).1 hAlike)

theorem Alike.flip (hAlike : Alike h R v w) : Alike h (fun x y => R y x) w v := by
  fun_cases Alike h R v w with
  | case1 a b =>
    rcases hAlike with rfl | ⟨hNames, hValues⟩
    · exact .inl rfl
    · exact .inr ⟨fun name => (hNames name).symm, fun name x y hx hy => hValues name y x hy hx⟩
  | case2 a b =>
    rcases hAlike with rfl | hItems
    · exact .inl rfl
    · exact .inr hItems.flip
  | case3 _ _ hObjects hArrays =>
    have hEq := (alike_iff_beq hObjects hArrays).1 hAlike
    rw [Value.beq_comm] at hEq
    exact (alike_iff_beq (fun a b hw hv => hObjects b a hv hw)
      (fun a b hw hv => hArrays b a hv hw)).2 hEq

/-- The converse of a bisimulation is one. -/
theorem Bisimulation.flip (hR : Bisimulation h R) : Bisimulation h fun v w => R w v :=
  fun v w hwv => (hR w v hwv).flip

/-- What a bisimulation holds of is deeply equal. -/
theorem structuralEq_of_bisimulation (hR : Bisimulation h R) (hvw : R v w) :
    structuralEq h v w = true := by
  refine isSome_agree hR [] [(v, w)] fun p hp => ?_
  rw [List.mem_singleton.1 hp]
  exact hvw

/-- All that is not two containers is deeply equal if it is equal. -/
theorem structuralEq_other (hvw : ∀ a b, v = .container a → w = .container b → False) :
    structuralEq h v w = (v == w) := by
  rw [structuralEq, agree_other hvw, agree]
  cases v == w <;> rfl

/-- Deep equality is a bisimulation. -/
theorem bisimulation_structuralEq (h : Heap) :
    Bisimulation h fun v w => structuralEq h v w = true := by
  intro v w hEq
  obtain ⟨final, hAgree⟩ := Option.isSome_iff_exists.1 hEq
  obtain ⟨-, hWaiting, hFinal⟩ := settled_of_agree hAgree
  -- nothing was assumed at first, so all that is assumed at the end has been opened
  have hSettled : Bisimulation h (Settled final) :=
    bisimulation_settled fun p hp => (hFinal p hp).resolve_left List.not_mem_nil
  have hAlike := hSettled v w (hWaiting (v, w) (List.mem_singleton_self _))
  exact hAlike.mono fun x y hxy => structuralEq_of_bisimulation hSettled hxy

/-- A value has everything in common with itself unless it is NaN. -/
theorem bisimulation_self (h : Heap) : Bisimulation h fun v w => v = w ∧ v.isNaN = false := by
  rintro v w ⟨rfl, hNumber⟩
  cases v with
  | container c => exact alike_self h _ c
  | absent | null | bool | number | text =>
    refine (alike_other fun a b hv _ => by cases hv).2 ?_
    rw [Value.beq_self, hNumber]
    rfl

/-- The order of two values makes no difference to deep equality, and a value is deeply equal to
itself exactly if it is not NaN. -/
theorem structuralEq_comm_self (h : Heap) :
    (∀ a b, structuralEq h a b = structuralEq h b a) ∧
      ∀ a, structuralEq h a a = !a.isNaN := by
  have hFlip := (bisimulation_structuralEq h).flip
  constructor
  · intro a b
    rw [Bool.eq_iff_iff]
    constructor
    · intro hab
      exact structuralEq_of_bisimulation hFlip hab
    · intro hba
      exact structuralEq_of_bisimulation hFlip hba
  · intro a
    cases hNumber : a.isNaN with
    | false => exact structuralEq_of_bisimulation (bisimulation_self h) ⟨rfl, hNumber⟩
    | true =>
      -- a NaN is no container, and it is not equal to itself
      have hScalar : ∀ b c, a = .container b → a = .container c → False := by
        rintro b c rfl -
        contradiction
      rw [structuralEq_other hScalar, Value.beq_self, hNumber]

end Search

end DocGraph
