/-!
# DocGraph: counting what is not marked yet

A walk that marks each thing it opens, and opens nothing twice, ends because the number of
unmarked things goes down. This is the count, for things of any kind.
-/

namespace DocGraph

variable {α : Type} [DecidableEq α]

/-- How many elements of `all` are not in `marked`. -/
def unmarked (all marked : List α) : Nat :=
  all.countP fun a => a ∉ marked

theorem unmarked_cons_le (all : List α) (a : α) (marked : List α) :
    unmarked all (a :: marked) ≤ unmarked all marked := by
  apply List.countP_mono_left
  intro b _ hb
  simp only [List.mem_cons, not_or, decide_eq_true_eq] at hb ⊢
  exact hb.2

theorem unmarked_cons_lt {all : List α} {a : α} {marked : List α} (ha : a ∈ all)
    (hm : a ∉ marked) : unmarked all (a :: marked) < unmarked all marked := by
  induction all with
  | nil => simp at ha
  | cons b rest ih =>
    have hle := unmarked_cons_le rest a marked
    unfold unmarked at hle ih ⊢
    by_cases hb : b = a
    -- the element itself counts no more
    · subst hb
      rw [List.countP_cons_of_neg (by simp), List.countP_cons_of_pos (by simpa using hm)]
      omega
    -- it is further behind, and the first element counts as before
    · have hr : a ∈ rest := by
        rcases List.mem_cons.1 ha with h | h
        · exact absurd h.symm hb
        · exact h
      have := ih hr
      rw [List.countP_cons, List.countP_cons]
      by_cases hbm : b ∈ marked <;> simp [hb, hbm] at this ⊢ <;> omega

end DocGraph
