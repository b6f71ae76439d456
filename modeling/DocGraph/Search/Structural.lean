import DocGraph.Heap

/-!
# DocGraph: deep equality of graphs

Two values are structurally equal if following the same keys from both never leads to a visible
difference. Field order is ignored. On a cyclic graph this is found by assuming a pair of
containers equal while its children are compared; an assumption is never taken back, for one
difference anywhere settles the whole comparison.

Pairs still to be compared wait in a list. Each pair of different containers is opened once, so
the comparison ends: what is left to assume, then the length of the list, goes down.
-/

namespace DocGraph.Search

/-- Two containers taken to be equal. -/
abbrev Assumption := Container × Container

/-- The children of two containers side by side; `none` if the keys differ. -/
def pairChildren (h : Heap) : Container → Container → Option (List (Value × Value))
  | .object a, .object b =>
    if (h.fields a).size = (h.fields b).size then
      (h.fields a).toList.mapM fun (name, v) => ((h.fields b).get? name).map (v, ·)
    else none
  | .array a, .array b =>
    if (h.items a).length = (h.items b).length then some ((h.items a).zip (h.items b)) else none
  | _, _ => none

/-- Every pair of containers of the heap. -/
def pairs (h : Heap) : List Assumption :=
  h.containers.flatMap fun a => h.containers.map (a, ·)

theorem mem_pairs {h : Heap} {a b : Container} :
    (a, b) ∈ pairs h ↔ a ∈ h.containers ∧ b ∈ h.containers := by
  simp [pairs]

theorem pairChildren_eq_nil {h : Heap} {a b : Container} {children : List (Value × Value)}
    (hp : pairChildren h a b = some children) (hm : (a, b) ∉ pairs h) : children = [] := by
  -- a handle outside the heap stands for an empty container
  have hab : h.entries a = [] ∨ h.entries b = [] := by
    rw [mem_pairs, Decidable.not_and_iff_or_not] at hm
    exact hm.imp Heap.entries_eq_nil Heap.entries_eq_nil
  unfold pairChildren at hp
  -- so both are empty, for they have equally many children
  split at hp
  · split at hp
    · rename_i x y hs
      have hx : (h.fields x).toList = [] := by
        simp only [Heap.entries, List.map_eq_nil_iff] at hab
        rcases hab with hx | hy
        · exact hx
        · simpa [Fields.size, hy] using hs
      simpa [hx, eq_comm] using hp
    · simp at hp
  · split at hp
    · rename_i x y hs
      have hx : h.items x = [] := by
        simp only [Heap.entries, List.map_eq_nil_iff, List.zipIdx_eq_nil_iff] at hab
        rcases hab with hx | hy
        · exact hx
        · simpa [hy] using hs
      simpa [hx, eq_comm] using hp
    · simp at hp
  · simp at hp

/-- Compares the pairs that wait, in order. The result is every pair of containers assumed equal
on the way, or `none` at the first difference. -/
def agree (h : Heap) (assumed : List Assumption) (waiting : List (Value × Value)) :
    Option (List Assumption) :=
  match waiting with
  | [] => some assumed
  | (.container a, .container b) :: rest =>
    if a = b ∨ (a, b) ∈ assumed then agree h assumed rest
    else
      match _h : pairChildren h a b with
      | none => none
      | some children => agree h ((a, b) :: assumed) (children ++ rest)
  | (v, w) :: rest => if v == w then agree h assumed rest else none
termination_by (unmarked (pairs h) assumed, waiting.length)
decreasing_by
  -- a pair left out: the list is shorter
  · exact Prod.Lex.right _ (by simp)
  -- a pair opened: it is new among the pairs of the heap, or it has no children
  · rename_i hn
    by_cases hm : (a, b) ∈ pairs h
    · exact Prod.Lex.left _ _ (unmarked_cons_lt hm fun ha => hn (.inr ha))
    · rcases Nat.lt_or_eq_of_le (unmarked_cons_le (pairs h) (a, b) assumed) with hlt | heq
      · exact Prod.Lex.left _ _ hlt
      · rw [heq, pairChildren_eq_nil _h hm]
        exact Prod.Lex.right _ (by simp)
  -- two equal scalars: the list is shorter
  · exact Prod.Lex.right _ (by simp)

section Step

variable {h : Heap} {assumed : List Assumption} {a b : Container} {v w : Value}
  {rest : List (Value × Value)}

theorem agree_skip (hab : a = b ∨ (a, b) ∈ assumed) :
    agree h assumed ((.container a, .container b) :: rest) = agree h assumed rest := by
  rw [agree, if_pos hab]

theorem agree_differ (hab : ¬ (a = b ∨ (a, b) ∈ assumed)) (hp : pairChildren h a b = none) :
    agree h assumed ((.container a, .container b) :: rest) = none := by
  rw [agree, if_neg hab]
  split <;> simp_all

theorem agree_open {children : List (Value × Value)} (hab : ¬ (a = b ∨ (a, b) ∈ assumed))
    (hp : pairChildren h a b = some children) :
    agree h assumed ((.container a, .container b) :: rest) =
      agree h ((a, b) :: assumed) (children ++ rest) := by
  rw [agree, if_neg hab]
  split <;> simp_all

theorem agree_other (hvw : ∀ a b, v = .container a → w = .container b → False) :
    agree h assumed ((v, w) :: rest) = if v == w then agree h assumed rest else none := by
  rw [agree]
  exact hvw

end Step

/-- Deep equality of two values, objects by their fields in any order. -/
def structuralEq (h : Heap) (a b : Value) : Bool :=
  (agree h [] [(a, b)]).isSome

end DocGraph.Search
