import DocGraph.Proofs.Conversion
import DocGraph.Proofs.Equality
import DocGraph.Proofs.Unfolding
import Mathlib

/-!
# DocGraph: where deep equality is not transitive

Two integers are compared exactly, and an integer and a double as doubles. Integers of more than 53
bits share their doubles with others, and a double between two such integers is equal to both of
them. Nothing else is in the way: if two values are not deeply equal though a third one is to both,
then the same keys lead from the three to such a double between two such integers.

* `Number.beq_trans_iff`: equality of numbers is transitive but for doubles between two integers.
* `alike_containers_iff` / `Alike.cases`: containers are alike if they have the same keys, and the
  children under them are related.
* `Matching.comp` / `bisimulation_bridged`: a container between two others may be left out, and so
  may a value between two others.
* `structuralEq_trans_iff`: deep equality is transitive but for such numbers under the same keys.
-/

namespace DocGraph

/-! ## Numbers -/

namespace Number

/-- The number between the other two is a double, and they are different integers, both too large to
be told apart by their doubles. -/
def Conflated : Number → Number → Number → Prop
  | .integer i, .float _, .integer k =>
    i ≠ k ∧ 2 ^ 53 ≤ i.toInt.natAbs ∧ 2 ^ 53 ≤ k.toInt.natAbs
  | _, _, _ => False

variable {a b c : Number}

theorem integer_beq {i k : Int64} : (integer i == integer k) = true ↔ i = k := by
  show (i == k) = true ↔ i = k
  exact beq_iff_eq

theorem Conflated.exists_integers (hConflated : Conflated a b c) :
    ∃ i k, a = .integer i ∧ c = .integer k ∧ i ≠ k ∧ 2 ^ 53 ≤ i.toInt.natAbs := by
  unfold Conflated at hConflated
  split at hConflated
  · exact ⟨_, _, rfl, rfl, hConflated.1, hConflated.2.1⟩
  · exact hConflated.elim

/-- Equal numbers are equal as doubles. -/
theorem toFloat_beq (hab : (a == b) = true) : (a.toFloat == b.toFloat) = true := by
  rcases integers_or_double a b with ⟨i, k, rfl, rfl⟩ | hDouble
  · -- integers are no NaN, so their doubles are equal to themselves
    obtain rfl := integer_beq.1 hab
    show (Float.ofInt i.toInt == Float.ofInt i.toInt) = true
    rw [float_beq_self, Decimal.isNaN_ofInt]
    rfl
  · rw [← beq_eq_toFloat hDouble]
    exact hab

theorem natAbs_toInt_lt (i : Int64) : i.toInt.natAbs < 2 ^ 64 := by
  have hLow := i.le_toInt
  have hHigh := i.toInt_lt
  omega

/-- Integers with one double are equal unless both are large. -/
theorem eq_of_toFloat_beq {i k : Int64} (hEq : ((integer i).toFloat == (integer k).toFloat) = true)
    (hSmall : i.toInt.natAbs < 2 ^ 53 ∨ k.toInt.natAbs < 2 ^ 53) : i = k := by
  rcases hSmall with hi | hk
  · exact Int64.toInt_inj.1 (Decimal.eq_of_ofInt_beq hi (natAbs_toInt_lt k) hEq)
  · rw [BEq.comm] at hEq
    exact (Int64.toInt_inj.1 (Decimal.eq_of_ofInt_beq hk (natAbs_toInt_lt i) hEq)).symm

/-- Two numbers equal to a third one are equal unless that is a double between large integers. -/
theorem beq_trans_iff (hab : (a == b) = true) (hbc : (b == c) = true) :
    (a == c) = true ↔ ¬ Conflated a b c := by
  have hFloats : (a.toFloat == c.toFloat) = true :=
    PartialEquivBEq.trans (toFloat_beq hab) (toFloat_beq hbc)
  rcases integers_or_double a c with ⟨i, k, rfl, rfl⟩ | hDouble
  · rw [integer_beq]
    cases b with
    | integer j => exact ⟨fun _ => id, fun _ => (integer_beq.1 hab).trans (integer_beq.1 hbc)⟩
    | float y =>
      constructor
      · rintro rfl ⟨hDiffer, -, -⟩
        exact hDiffer rfl
      · intro hNone
        by_contra hDiffer
        refine hNone ⟨hDiffer, ?_, ?_⟩
        · by_contra hi
          exact hDiffer (eq_of_toFloat_beq hFloats (.inl (by omega)))
        · by_contra hk
          exact hDiffer (eq_of_toFloat_beq hFloats (.inr (by omega)))
  · -- a double on either side is compared as such
    constructor
    · intro _ hConflated
      obtain ⟨i, k, rfl, rfl, -⟩ := hConflated.exists_integers
      simp [isInteger] at hDouble
    · intro _
      rw [beq_eq_toFloat hDouble]
      exact hFloats

end Number

namespace Value

variable {u v w : Value}

/-- Only numbers are equal to others than themselves. -/
theorem eq_of_beq (hvw : (v == w) = true) :
    v = w ∨ ∃ l n, v = .number l ∧ w = .number n ∧ (l == n) = true := by
  cases v with
  | number l =>
    cases w with
    | number n => exact .inr ⟨l, n, rfl, rfl, hvw⟩
    | absent | null | bool | text | container => contradiction
  | bool a =>
    cases w with
    | bool b => exact .inl (congrArg bool (beq_iff_eq.1 hvw))
    | absent | null | number | text | container => contradiction
  | text a =>
    cases w with
    | text b => exact .inl (congrArg text (beq_iff_eq.1 hvw))
    | absent | null | bool | number | container => contradiction
  | container a =>
    cases w with
    | container b => exact .inl (congrArg container (beq_iff_eq.1 hvw))
    | absent | null | bool | number | text => contradiction
  | absent | null => cases w <;> first | exact .inl rfl | contradiction

end Value

/-! ## Three values side by side -/

/-- The keys that lead from the first three values to the last three are the same. -/
inductive Heap.SideBySide (h : Heap) (a b c : Value) : Value → Value → Value → Prop
  | here : SideBySide h a b c a b c
  | step {p q r : Container} {key : Key} {v u w : Value} :
      SideBySide h a b c (.container p) (.container q) (.container r) →
      (key, v) ∈ h.entries p → (key, u) ∈ h.entries q → (key, w) ∈ h.entries r →
      SideBySide h a b c v u w

namespace Search

variable {h : Heap} {R S T : Value → Value → Prop} {p q r : Container} {a b c u v w : Value}

/-! ## Containers that are alike -/

/-- The two containers are of one kind and have the same keys, with related children. -/
structure Matching (h : Heap) (R : Value → Value → Prop) (p q : Container) : Prop where
  kind : p.isArray = q.isArray
  keys : ∀ key, key ∈ (h.entries p).map Prod.fst ↔ key ∈ (h.entries q).map Prod.fst
  children : ∀ key v w, (key, v) ∈ h.entries p → (key, w) ∈ h.entries q → R v w

theorem field_mem_entries {id : Nat} {name : String} :
    (.field name, v) ∈ h.entries (.object id) ↔ (h.fields id).get? name = some v := by
  rw [Heap.mem_entries_object_iff, ← Fields.mem_toList_iff_get?]
  constructor
  · rintro ⟨_, hKey, hMem⟩
    cases hKey
    exact hMem
  · intro hMem
    exact ⟨name, rfl, hMem⟩

theorem index_mem_entries {id position : Nat} :
    (.index position, v) ∈ h.entries (.array id) ↔ (h.items id)[position]? = some v := by
  rw [Heap.mem_entries_array_iff]
  constructor
  · rintro ⟨_, hKey, hItem⟩
    cases hKey
    exact hItem
  · intro hItem
    exact ⟨position, rfl, hItem⟩

theorem forall_mem_map_iff {α β : Type} {f : α → β} (hf : Function.Injective f) {l m : List α} :
    (∀ y, y ∈ l.map f ↔ y ∈ m.map f) ↔ ∀ x, x ∈ l ↔ x ∈ m := by
  constructor
  · intro hMapped x
    rw [← List.mem_map_of_injective hf, hMapped, List.mem_map_of_injective hf]
  · intro hSame y
    rw [List.mem_map, List.mem_map]
    exact exists_congr fun x => and_congr_left' (hSame x)

theorem matching_objects_iff {a b : Nat} :
    Matching h R (.object a) (.object b) ↔
      (∀ name, (h.fields a).contains name = (h.fields b).contains name) ∧
        ∀ name v w, (h.fields a).get? name = some v → (h.fields b).get? name = some w → R v w := by
  have hKeys : (∀ key, key ∈ (h.entries (.object a)).map Prod.fst ↔
      key ∈ (h.entries (.object b)).map Prod.fst) ↔
      ∀ name, (h.fields a).contains name = (h.fields b).contains name := by
    rw [h.keys_object, h.keys_object, forall_mem_map_iff fun _ _ => Key.field.inj]
    refine forall_congr' fun name => ?_
    rw [Bool.eq_iff_iff, contains_iff_mem_names, contains_iff_mem_names]
  constructor
  · intro hMatching
    refine ⟨hKeys.1 hMatching.keys, fun name v w hv hw => ?_⟩
    exact hMatching.children _ v w (field_mem_entries.2 hv) (field_mem_entries.2 hw)
  · rintro ⟨hNames, hValues⟩
    refine ⟨rfl, hKeys.2 hNames, fun key v w hv hw => ?_⟩
    obtain ⟨name, rfl, -⟩ := Heap.mem_entries_object_iff.1 hv
    exact hValues name v w (field_mem_entries.1 hv) (field_mem_entries.1 hw)

theorem matching_arrays_iff {a b : Nat} :
    Matching h R (.array a) (.array b) ↔ List.Forall₂ R (h.items a) (h.items b) := by
  have hKeys : (∀ key, key ∈ (h.entries (.array a)).map Prod.fst ↔
      key ∈ (h.entries (.array b)).map Prod.fst) ↔ (h.items a).length = (h.items b).length := by
    rw [h.keys_array, h.keys_array, forall_mem_map_iff fun _ _ => Key.index.inj]
    simp only [List.mem_range'_1, Nat.zero_le, Nat.zero_add, true_and]
    constructor
    · intro hSame
      have hLeft := hSame (h.items a).length
      have hRight := hSame (h.items b).length
      omega
    · intro hLength position
      rw [hLength]
  rw [List.forall₂_iff_get]
  constructor
  · intro hMatching
    refine ⟨hKeys.1 hMatching.keys, fun position hv hw => ?_⟩
    exact hMatching.children _ _ _ (index_mem_entries.2 (List.getElem?_eq_getElem hv))
      (index_mem_entries.2 (List.getElem?_eq_getElem hw))
  · rintro ⟨hLength, hItems⟩
    refine ⟨rfl, hKeys.2 hLength, fun key v w hv hw => ?_⟩
    obtain ⟨position, rfl, -⟩ := Heap.mem_entries_array_iff.1 hv
    obtain ⟨hInside, rfl⟩ := List.getElem?_eq_some_iff.1 (index_mem_entries.1 hv)
    obtain ⟨hInside', rfl⟩ := List.getElem?_eq_some_iff.1 (index_mem_entries.1 hw)
    exact hItems position hInside hInside'

/-- Different containers are alike if they match. -/
theorem alike_containers_iff (hpq : p ≠ q) :
    Alike h R (.container p) (.container q) ↔ Matching h R p q := by
  match p, q, hpq with
  | .object a, .object b, hpq =>
    have hab : a ≠ b := fun hEq => hpq (congrArg _ hEq)
    rw [matching_objects_iff]
    exact or_iff_right hab
  | .array a, .array b, hpq =>
    have hab : a ≠ b := fun hEq => hpq (congrArg _ hEq)
    rw [matching_arrays_iff]
    exact or_iff_right hab
  | .object a, .array b, hpq =>
    refine iff_of_false ?_ fun hMatching => ?_
    · simp [Alike, BEq.beq, Value.strictEq]
    · exact absurd hMatching.kind (by simp [Container.isArray])
  | .array a, .object b, hpq =>
    refine iff_of_false ?_ fun hMatching => ?_
    · simp [Alike, BEq.beq, Value.strictEq]
    · exact absurd hMatching.kind (by simp [Container.isArray])

theorem Matching.exists_child {key : Key} (hpq : Matching h R p q) (hv : (key, v) ∈ h.entries p) :
    ∃ w, (key, w) ∈ h.entries q := by
  have hKey := (hpq.keys key).1 (List.mem_map_of_mem hv)
  obtain ⟨⟨_, w⟩, hw, rfl⟩ := List.mem_map.1 hKey
  exact ⟨w, hw⟩

/-- Two containers match if there is one between them that matches both. -/
theorem Matching.comp (hpq : Matching h R p q) (hqr : Matching h S q r)
    (hT : ∀ key v u w, (key, v) ∈ h.entries p → (key, u) ∈ h.entries q → (key, w) ∈ h.entries r →
      R v u → S u w → T v w) : Matching h T p r := by
  refine ⟨hpq.kind.trans hqr.kind, fun key => (hpq.keys key).trans (hqr.keys key), ?_⟩
  intro key v w hv hw
  obtain ⟨u, hu⟩ := hpq.exists_child hv
  exact hT key v u w hv hu hw (hpq.children key v u hv hu) (hqr.children key u w hu hw)

/-- Values that are alike are the same, or two containers that match, or equal numbers. -/
theorem Alike.cases (hAlike : Alike h R v w) :
    v = w ∨ (∃ p q, v = .container p ∧ w = .container q ∧ Matching h R p q) ∨
      ∃ l n, v = .number l ∧ w = .number n ∧ (l == n) = true := by
  by_cases hContainers : ∃ p q, v = .container p ∧ w = .container q
  · obtain ⟨p, q, rfl, rfl⟩ := hContainers
    by_cases hpq : p = q
    · exact .inl (congrArg _ hpq)
    · exact .inr (.inl ⟨p, q, rfl, rfl, (alike_containers_iff hpq).1 hAlike⟩)
  · have hEq := (alike_other fun p q hv hw => hContainers ⟨p, q, hv, hw⟩).1 hAlike
    exact (Value.eq_of_beq hEq).imp_right .inr

/-- Children under one key are related as their owners are. -/
theorem Bisimulation.child {key : Key} (hR : Bisimulation h R)
    (hpq : p = q ∨ R (.container p) (.container q)) (hv : (key, v) ∈ h.entries p)
    (hw : (key, w) ∈ h.entries q) : v = w ∨ R v w := by
  by_cases hSame : p = q
  · subst hSame
    exact .inl (Heap.value_unique hv hw)
  · have hAlike := hR _ _ (hpq.resolve_left hSame)
    exact .inr (((alike_containers_iff hSame).1 hAlike).children key v w hv hw)

/-! ## Deep equality over a value between -/

/-- The values are deeply equal, or both are to one between them. -/
def Bridged (h : Heap) (a b c v w : Value) : Prop :=
  structuralEq h v w = true ∨ ∃ u, h.SideBySide a b c v u w ∧ structuralEq h v u = true ∧
    structuralEq h u w = true

/-- Where no numbers under the same keys are in the way, a value between may be left out. -/
theorem bisimulation_bridged
    (hNone : ∀ l m n, h.SideBySide a b c (.number l) (.number m) (.number n) →
      ¬ l.Conflated m n) : Bisimulation h (Bridged h a b c) := by
  have hEqual := bisimulation_structuralEq h
  rintro v w (hvw | ⟨u, hSide, hvu, huw⟩)
  · exact (hEqual v w hvw).mono fun _ _ => .inl
  · rcases (hEqual v u hvu).cases with rfl | ⟨p, q, rfl, rfl, hpq⟩ | ⟨l, m, rfl, rfl, hlm⟩
    · exact (hEqual v w huw).mono fun _ _ => .inl
    · rcases (hEqual _ w huw).cases with rfl | ⟨q', r, hq, rfl, hqr⟩ | ⟨m, n, hm, _⟩
      · exact (hEqual _ _ hvu).mono fun _ _ => .inl
      · -- the children have children of the container between them
        cases hq
        by_cases hpr : p = r
        · subst hpr
          exact alike_self h _ p
        · refine (alike_containers_iff hpr).2 (hpq.comp hqr fun key x y z hx hy hz hxy hyz => ?_)
          exact .inr ⟨y, .step hSide hx hy hz, hxy, hyz⟩
      · contradiction
    · rcases (hEqual _ w huw).cases with rfl | ⟨q, r, hq, _⟩ | ⟨m', n, hm, rfl, hmn⟩
      · exact (hEqual _ _ hvu).mono fun _ _ => .inl
      · contradiction
      · cases hm
        refine (alike_other fun _ _ hContainer _ => ?_).2 ?_
        · contradiction
        · exact (Number.beq_trans_iff hlm hmn).2 (hNone l m n hSide)

/-- What the same keys lead to from deeply equal values is the same or deeply equal. -/
theorem eq_or_structuralEq_of_sideBySide (hac : structuralEq h a c = true)
    (hSide : h.SideBySide a b c v u w) : v = w ∨ structuralEq h v w = true := by
  induction hSide with
  | here => exact .inr hac
  | step _ hv _ hw ih =>
    refine (bisimulation_structuralEq h).child (ih.imp_left fun hEq => ?_) hv hw
    exact Value.container.inj hEq

/-- Two values deeply equal to a third one are deeply equal unless the same keys lead from the three
of them to a double between two large integers that are different. -/
theorem structuralEq_trans_iff (hab : structuralEq h a b = true) (hbc : structuralEq h b c = true) :
    structuralEq h a c = true ↔ ∀ l m n,
      h.SideBySide a b c (.number l) (.number m) (.number n) → ¬ l.Conflated m n := by
  constructor
  · intro hac l m n hSide hConflated
    obtain ⟨i, k, rfl, rfl, hDiffer, -⟩ := hConflated.exists_integers
    rcases eq_or_structuralEq_of_sideBySide hac hSide with hSame | hEq
    · cases hSame
      exact hDiffer rfl
    · rw [structuralEq_other fun _ _ hContainer _ => by contradiction] at hEq
      exact hDiffer (Number.integer_beq.1 hEq)
  · intro hNone
    exact structuralEq_of_bisimulation (bisimulation_bridged hNone) (.inr ⟨b, .here, hab, hbc⟩)

/-- Two arrays of equal numbers and the arrays themselves are deeply equal. -/
theorem structuralEq_of_rings {i j : Nat} {m n : Number} (hij : i ≠ j)
    (hi : h.items i = [.number m, .container (.array i)])
    (hj : h.items j = [.number n, .container (.array j)]) (hmn : (m == n) = true) :
    structuralEq h (.container (.array i)) (.container (.array j)) = true := by
  have hPair : pairChildren h (.array i) (.array j) =
      some [(.number m, .number n), (.container (.array i), .container (.array j))] := by
    rw [pairChildren, hi, hj]
    rfl
  have hNumbers : (Value.number m == .number n) = true := hmn
  rw [structuralEq, agree_open (by simp [hij]) hPair]
  show (agree h _ [(.number m, .number n), (.container _, .container _)]).isSome = true
  rw [agree_other (by simp), if_pos hNumbers, agree_skip (.inr List.mem_cons_self), agree]
  rfl

/-- Three arrays that hold the number one, two of them as an integer, and themselves. -/
def ringsHeap : Heap where
  objects := #[]
  arrays := #[[.number (.integer 1), .container (.array 0)],
    [.number (.float 1), .container (.array 1)],
    [.number (.integer 1), .container (.array 2)]]

theorem structuralEq_trans_iff_rings :
    structuralEq ringsHeap (.container (.array 0)) (.container (.array 1)) = true ∧
      structuralEq ringsHeap (.container (.array 1)) (.container (.array 2)) = true ∧
      structuralEq ringsHeap (.container (.array 0)) (.container (.array 2)) = true := by
  have hFirst : structuralEq ringsHeap (.container (.array 0)) (.container (.array 1)) = true :=
    structuralEq_of_rings (by decide) rfl rfl (by decide +kernel)
  have hSecond : structuralEq ringsHeap (.container (.array 1)) (.container (.array 2)) = true :=
    structuralEq_of_rings (by decide) rfl rfl (by decide +kernel)
  -- the first array leads to nothing but itself and a number that is small
  have hReached : ∀ v u w, ringsHeap.SideBySide (.container (.array 0)) (.container (.array 1))
      (.container (.array 2)) v u w → v = .container (.array 0) ∨ v = .number (.integer 1) := by
    intro v u w hSide
    induction hSide with
    | here => exact .inl rfl
    | @step p _ _ _ _ _ _ _ hv _ _ ih =>
      obtain rfl : p = .array 0 := by simpa using ih
      have hItems : ringsHeap.items 0 = [.number (.integer 1), .container (.array 0)] := rfl
      obtain ⟨position, -, hItem⟩ := Heap.mem_entries_array_iff.1 hv
      have hMem := List.mem_of_getElem? hItem
      rw [hItems] at hMem
      simpa [or_comm] using hMem
  refine ⟨hFirst, hSecond, (structuralEq_trans_iff hFirst hSecond).2 fun l m n hSide => ?_⟩
  intro hConflated
  obtain rfl : l = .integer 1 := by simpa using hReached _ _ _ hSide
  obtain ⟨i, _, hInteger, -, -, hLarge⟩ := hConflated.exists_integers
  cases hInteger
  contradiction

/-- Two to the power of 53, as an integer and as a double, and the integer after it. -/
theorem structuralEq_not_trans :
    (Value.number (.float 9007199254740992)).isNaN = false ∧
      structuralEq .empty (.number (.integer 9007199254740992))
        (.number (.float 9007199254740992)) = true ∧
      structuralEq .empty (.number (.float 9007199254740992))
        (.number (.integer 9007199254740993)) = true ∧
      structuralEq .empty (.number (.integer 9007199254740992))
        (.number (.integer 9007199254740993)) = false := by
  rw [structuralEq_other (by simp), structuralEq_other (by simp), structuralEq_other (by simp)]
  decide +kernel

end Search

end DocGraph
