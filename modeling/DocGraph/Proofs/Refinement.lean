import DocGraph.Proofs.Below
import DocGraph.Proofs.Equality

/-!
# DocGraph: a finer comparator finds less

What a search compares does not depend on its comparator, and neither does the order. So if whatever
one comparator accepts is accepted by another too, then the paths found with the first are among those
found with the second, in the same order; only what the second accepts in addition comes between them.

Identity is finer than deep equality. A container is deeply equal to itself, even with a NaN in it,
for it is never opened then; and what is no container is compared by value in both, NaN included. So
the two find the same for a target that is no container.

* `structuralEq_of_beq` / `structuralEq_scalar`: equality by value and identity, and deep equality.
* `findByValue_sublist`: two comparators on one list of candidates.
* `strict_refines_structural`: all three parts together.
-/

namespace DocGraph.Search

variable {h : Heap} {root v w target : Value}

/-! ## Two comparators on one candidate -/

/-- What is equal by value or identity is deeply equal. -/
theorem structuralEq_of_beq (hEq : (v == w) = true) : structuralEq h v w = true := by
  by_cases hBoth : ∃ a b, v = .container a ∧ w = .container b
  · obtain ⟨a, b, rfl, rfl⟩ := hBoth
    -- a container beside itself is not opened
    have hSame : a = b := eq_of_beq hEq
    rw [structuralEq, agree_skip (.inl hSame), agree]
    rfl
  · rw [structuralEq_other fun a b hv hw => hBoth ⟨a, b, hv, hw⟩]
    exact hEq

/-- A target that is no container is deeply equal to what is equal by value. -/
theorem structuralEq_scalar (hTarget : target.container? = none) :
    structuralEq h v target = (v == target) := by
  refine structuralEq_other fun a b _ hb => ?_
  rw [hb] at hTarget
  contradiction

theorem judge_structural_iff :
    Comparator.structural.judge h v target = .accepted ↔ structuralEq h v target = true := by
  rw [Comparator.judge, Verdict.ofBool]
  cases structuralEq h v target <;> simp

/-! ## Two comparators on all candidates -/

/-- The second comparator accepts every child below `root` that the first one accepts. -/
def Implies (h : Heap) (root target : Value) (fine coarse : Comparator) : Prop :=
  ∀ c key v, h.Meets root c → (key, v) ∈ h.entries c →
    fine.judge h v target = .accepted → coarse.judge h v target = .accepted

theorem implies_structural (h : Heap) (root target : Value) :
    Implies h root target .strict .structural := by
  intro c key v _ _ hStrict
  exact judge_structural_iff.2 (structuralEq_of_beq (judge_strict_iff.1 hStrict))

/-- What a finer comparator finds is found by a coarser one, in the same order. -/
theorem findByValue_sublist {fine coarse : Comparator} (hImplies : Implies h root target fine coarse) :
    (findByValue h root target fine).Sublist (findByValue h root target coarse) := by
  unfold findByValue
  rw [findValueReport_eq_compared, findValueReport_eq_compared, Report.ofCandidates,
    Report.ofCandidates]
  refine List.Sublist.map _ ?_
  -- the first comparator picks from what the second one picks
  have hPicked : ((compared h root).filter fun e => fine.judge h e.value target = .accepted) =
      ((compared h root).filter fun e => coarse.judge h e.value target = .accepted).filter
        fun e => fine.judge h e.value target = .accepted := by
    rw [List.filter_filter]
    refine List.filter_congr fun e he => ?_
    obtain ⟨hEntry, edges, hRoute, -⟩ := exists_route_of_compared he
    have hAccepted := hImplies e.owner e.key e.value ⟨edges, hRoute⟩ hEntry
    rw [← Bool.decide_and, decide_eq_decide]
    exact ⟨fun hFine => ⟨hFine, hAccepted hFine⟩, And.left⟩
  rw [hPicked]
  exact List.filter_sublist

/-- The paths found by identity are found by deep equality too, in the same order, and no others are
found if the target is no container. Of any two comparators, the first of which accepts a candidate
only if the second does, the first finds some of the paths that the second finds, in the same order;
on other candidates both may do as they like, faults included. -/
theorem strict_refines_structural (h : Heap) (root target : Value) :
    (findByValue h root target .strict).Sublist (findByValue h root target .structural) ∧
      (target.container? = none →
        findByValue h root target .strict = findByValue h root target .structural) ∧
      ∀ fine coarse : Comparator, Implies h root target fine coarse →
        (findByValue h root target fine).Sublist (findByValue h root target coarse) := by
  have hFirst := findByValue_sublist (implies_structural h root target)
  refine ⟨hFirst, fun hTarget => ?_, fun fine coarse hImplies => findByValue_sublist hImplies⟩
  have hImplies : Implies h root target .structural .strict := by
    intro c key v _ _ hStructural
    have hEqual := judge_structural_iff.1 hStructural
    rw [structuralEq_scalar hTarget] at hEqual
    exact judge_strict_iff.2 hEqual
  -- two lists, each within the other
  exact hFirst.antisymm (findByValue_sublist hImplies)

/-- An array that holds two objects with the number, two without, and itself. -/
def pairsHeap (x : Float) : Heap where
  objects := #[.ofList [("x", .number (.float x))], .ofList [("x", .number (.float x))],
    .ofList [("x", .null)], .ofList [("x", .null)]]
  arrays := #[[.container (.object 0), .container (.object 1), .container (.object 2),
    .container (.object 3), .container (.array 0)]]

theorem strict_refines_structural_pairs :
    findByValue (pairsHeap .nan) (.container (.array 0)) (.container (.object 3)) .strict = ["3"] ∧
      findByValue (pairsHeap .nan) (.container (.array 0)) (.container (.object 3)) .structural =
        ["2", "3"] ∧
      ["3"].Sublist ["2", "3"] := by
  obtain ⟨hSub, -, -⟩ := strict_refines_structural (pairsHeap .nan) (.container (.array 0))
    (.container (.object 3))
  -- the number plays no part in either search
  generalize Float.nan = x at hSub ⊢
  have hStrict : findByValue (pairsHeap x) (.container (.array 0)) (.container (.object 3)) .strict =
      ["3"] := by cbv
  have hStructural :
      findByValue (pairsHeap x) (.container (.array 0)) (.container (.object 3)) .structural =
        ["2", "3"] := by cbv
  rw [hStrict, hStructural] at hSub
  exact ⟨hStrict, hStructural, hSub⟩

end DocGraph.Search
