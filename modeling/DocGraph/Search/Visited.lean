import DocGraph.Heap

/-!
# DocGraph: containers already entered

A search enters a container at most once. Membership is by identity: two containers with the
same content are different, two handles to one container are the same.
-/

namespace DocGraph.Search

/-- The containers entered so far, the latest first, none twice. -/
structure Visited where
  entered : List Container
  nodup : entered.Nodup

namespace Visited

def empty : Visited := ⟨[], by simp⟩

def contains (v : Visited) (c : Container) : Bool :=
  v.entered.contains c

def size (v : Visited) : Nat :=
  v.entered.length

/-- Enters a container; `none` if it has been entered before. -/
def enter? (v : Visited) (c : Container) : Option Visited :=
  if h : c ∈ v.entered then none
  else some ⟨c :: v.entered, List.nodup_cons.2 ⟨h, v.nodup⟩⟩

/-- How many containers of the heap are still to be entered. -/
def remaining (v : Visited) (h : Heap) : Nat :=
  h.remaining v.entered

theorem enter?_eq_some_iff {v w : Visited} {c : Container} :
    v.enter? c = some w ↔ c ∉ v.entered ∧ w.entered = c :: v.entered := by
  unfold enter?
  split
  · simp_all
  · obtain ⟨l, hl⟩ := w
    simp_all [eq_comm]

theorem enter?_eq_none_iff {v : Visited} {c : Container} : v.enter? c = none ↔ c ∈ v.entered := by
  simp [enter?]

theorem remaining_le_of_enter? {v w : Visited} {c : Container} (h : Heap)
    (hw : v.enter? c = some w) : w.remaining h ≤ v.remaining h := by
  rw [remaining, remaining, (enter?_eq_some_iff.1 hw).2]
  exact h.remaining_cons_le c v.entered

/-- Entering a container with children leaves fewer to enter. -/
theorem remaining_lt_of_enter? {v w : Visited} {c : Container} {h : Heap}
    (hw : v.enter? c = some w) (hc : h.entries c ≠ []) : w.remaining h < v.remaining h := by
  obtain ⟨hn, he⟩ := enter?_eq_some_iff.1 hw
  rw [remaining, remaining, he]
  exact Heap.remaining_cons_lt (Decidable.byContradiction fun hm => hc (Heap.entries_eq_nil hm)) hn

/-- What a search uses up when it enters a container and lets its children join those that wait:
fewer containers are left to enter, or nothing joins and less waits. -/
theorem lex_lt_of_enter? {v w : Visited} {c : Container} {h : Heap} {waiting waiting' : Nat}
    (hw : v.enter? c = some w) (hl : h.entries c = [] → waiting' < waiting) :
    Prod.Lex (· < ·) (· < ·) (w.remaining h, waiting') (v.remaining h, waiting) := by
  by_cases hc : h.entries c = []
  · rcases Nat.lt_or_eq_of_le (remaining_le_of_enter? h hw) with hlt | heq
    · exact Prod.Lex.left _ _ hlt
    · rw [heq]
      exact Prod.Lex.right _ (hl hc)
  · exact Prod.Lex.left _ _ (remaining_lt_of_enter? hw hc)

end Visited

end DocGraph.Search
