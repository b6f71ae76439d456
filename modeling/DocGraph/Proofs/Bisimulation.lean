import DocGraph.Search.Structural
import Mathlib.Data.List.Forall2
import Mathlib.Data.List.Perm.Subperm

/-!
# DocGraph: deep equality is bisimilarity

Two values of a graph that may be cyclic are deeply equal if no sequence of keys, followed from
both, leads to a difference. This is said without following sequences: some relation holds of the
two values, and never of a pair that differs at once or has children of one key outside it.

Deep equality decides it with a set of assumed pairs that only grows. That makes no difference:
at the end of a comparison that fails nowhere the assumed pairs *are* such a relation, for each of
them has been opened and its children found in order, and a pair that fails ends the comparison.

* `pairChildren_object` / `pairChildren_of_sameNames`: the children of two objects side by side.
* `settled_of_agree`: what a comparison that ends well leaves behind, by induction on its steps.
* `isSome_agree`: related pairs never fail.
* `structuralEq_iff_bisimilar`: the two together.
-/

namespace DocGraph.Search

/-- What two values have in common if the children of containers are compared by `R`: two objects
have the same names, with related values; two arrays have related elements at the same positions;
all else is equal. A container has everything in common with itself. -/
def Alike (h : Heap) (R : Value → Value → Prop) : Value → Value → Prop
  | .container (.object a), .container (.object b) =>
    a = b ∨ (∀ name, (h.fields a).contains name = (h.fields b).contains name) ∧
      ∀ name v w, (h.fields a).get? name = some v → (h.fields b).get? name = some w → R v w
  | .container (.array a), .container (.array b) =>
    a = b ∨ List.Forall₂ R (h.items a) (h.items b)
  | v, w => (v == w) = true

/-- A relation that holds only of values alike, children included. -/
def Bisimulation (h : Heap) (R : Value → Value → Prop) : Prop :=
  ∀ v w, R v w → Alike h R v w

/-! ## The fields of two objects side by side -/

theorem contains_iff_mem_names {α : Type} {f : Fields α} {name : String} :
    f.contains name = true ↔ name ∈ f.toList.map Prod.fst := by
  rw [Fields.contains, Option.isSome_iff_exists]
  constructor
  · rintro ⟨v, hv⟩
    exact List.mem_map.2 ⟨_, f.mem_toList_iff_get?.2 hv, rfl⟩
  · intro hName
    obtain ⟨⟨_, v⟩, hMem, rfl⟩ := List.mem_map.1 hName
    exact ⟨v, f.mem_toList_iff_get?.1 hMem⟩

/-- As many fields, and all names of the one among those of the other: the names are the same. -/
theorem contains_eq_of_subset {α : Type} {f g : Fields α} (hSize : f.size = g.size)
    (hSub : ∀ name, f.contains name = true → g.contains name = true) (name : String) :
    f.contains name = g.contains name := by
  have hSubset : f.toList.map Prod.fst ⊆ g.toList.map Prod.fst := fun name hName =>
    contains_iff_mem_names.1 (hSub name (contains_iff_mem_names.2 hName))
  -- names are listed once, so a list of them inside another of equal length is a permutation of it
  have hPerm : (f.toList.map Prod.fst).Perm (g.toList.map Prod.fst) :=
    (f.nodup.subperm hSubset).perm_of_length_le (by
      rw [List.length_map, List.length_map]
      exact Nat.le_of_eq hSize.symm)
  rw [Bool.eq_iff_iff, contains_iff_mem_names, contains_iff_mem_names]
  exact hPerm.mem_iff

theorem size_eq_of_contains_eq {α : Type} {f g : Fields α}
    (hNames : ∀ name, f.contains name = g.contains name) : f.size = g.size := by
  have hPerm : (f.toList.map Prod.fst).Perm (g.toList.map Prod.fst) := by
    refine (List.perm_ext_iff_of_nodup f.nodup g.nodup).2 fun name => ?_
    rw [← contains_iff_mem_names, ← contains_iff_mem_names, hNames]
  simpa [Fields.size] using hPerm.length_eq

section MapM

variable {α β : Type} {f : α → Option β} {l : List α}

/-- What a list is mapped to holds what its elements are mapped to. -/
theorem mem_of_mapM_eq_some {m : List β} (hMap : l.mapM f = some m) :
    (∀ a ∈ l, ∃ b ∈ m, f a = some b) ∧ ∀ b ∈ m, ∃ a ∈ l, f a = some b := by
  induction l generalizing m with
  | nil =>
    cases hMap
    simp
  | cons a l ih =>
    rw [List.mapM_cons] at hMap
    obtain ⟨b, hb, hRest⟩ := Option.bind_eq_some_iff.1 hMap
    obtain ⟨m', hm', hCons⟩ := Option.bind_eq_some_iff.1 hRest
    cases hCons
    obtain ⟨hLeft, hRight⟩ := ih hm'
    constructor
    · intro a' ha'
      rcases List.mem_cons.1 ha' with rfl | ha'
      · exact ⟨b, List.mem_cons_self, hb⟩
      · obtain ⟨b', hb', hf⟩ := hLeft a' ha'
        exact ⟨b', List.mem_cons_of_mem _ hb', hf⟩
    · intro b' hb'
      rcases List.mem_cons.1 hb' with rfl | hb'
      · exact ⟨a, List.mem_cons_self, hb⟩
      · obtain ⟨a', ha', hf⟩ := hRight b' hb'
        exact ⟨a', List.mem_cons_of_mem _ ha', hf⟩

theorem exists_mapM_eq_some (hf : ∀ a ∈ l, ∃ b, f a = some b) : ∃ m, l.mapM f = some m := by
  induction l with
  | nil => exact ⟨[], rfl⟩
  | cons a l ih =>
    obtain ⟨b, hb⟩ := hf a List.mem_cons_self
    obtain ⟨m, hm⟩ := ih fun a ha => hf a (List.mem_cons_of_mem _ ha)
    exact ⟨b :: m, by rw [List.mapM_cons, hb, hm]; rfl⟩

end MapM

/-- Objects whose children pair up have the same names, and the values of a name are a pair. -/
theorem pairChildren_object {h : Heap} {a b : Nat} {children : List (Value × Value)}
    (hp : pairChildren h (.object a) (.object b) = some children) :
    (∀ name, (h.fields a).contains name = (h.fields b).contains name) ∧
      ∀ name v w, (h.fields a).get? name = some v → (h.fields b).get? name = some w →
        (v, w) ∈ children := by
  rw [pairChildren, Option.ite_none_right_eq_some] at hp
  obtain ⟨hSize, hMap⟩ := hp
  -- each field on the left has its partner on the right
  have hPartner : ∀ name v, (h.fields a).get? name = some v →
      ∃ w, (h.fields b).get? name = some w ∧ (v, w) ∈ children := by
    intro name v hv
    obtain ⟨c, hc, hLookup⟩ :=
      (mem_of_mapM_eq_some hMap).1 _ ((h.fields a).mem_toList_iff_get?.2 hv)
    obtain ⟨w, hw, rfl⟩ := Option.map_eq_some_iff.1 hLookup
    exact ⟨w, hw, hc⟩
  constructor
  · refine contains_eq_of_subset hSize fun name hName => ?_
    obtain ⟨v, hv⟩ := Option.isSome_iff_exists.1 hName
    obtain ⟨w, hw, -⟩ := hPartner name v hv
    rw [Fields.contains, hw]
    rfl
  · intro name v w hv hw
    obtain ⟨w', hw', hMem⟩ := hPartner name v hv
    rw [hw] at hw'
    rw [Option.some.inj hw']
    exact hMem

/-- Objects with the same names have children that pair up by their names. -/
theorem pairChildren_of_sameNames {h : Heap} {a b : Nat}
    (hNames : ∀ name, (h.fields a).contains name = (h.fields b).contains name) :
    ∃ children, pairChildren h (.object a) (.object b) = some children ∧
      ∀ p ∈ children, ∃ name, (h.fields a).get? name = some p.1 ∧
        (h.fields b).get? name = some p.2 := by
  have hLookups : ∀ e ∈ (h.fields a).toList, ∃ c,
      ((h.fields b).get? e.1).map (e.2, ·) = some c := by
    intro e he
    have hName : (h.fields b).contains e.1 = true := by
      rw [← hNames, contains_iff_mem_names]
      exact List.mem_map_of_mem he
    obtain ⟨w, hw⟩ := Option.isSome_iff_exists.1 hName
    exact ⟨(e.2, w), by rw [hw]; rfl⟩
  obtain ⟨children, hMap⟩ := exists_mapM_eq_some hLookups
  refine ⟨children, ?_, fun p hp => ?_⟩
  · rw [pairChildren, if_pos (size_eq_of_contains_eq hNames)]
    exact hMap
  · obtain ⟨⟨name, v⟩, hMem, hLookup⟩ := (mem_of_mapM_eq_some hMap).2 p hp
    obtain ⟨w, hw, rfl⟩ := Option.map_eq_some_iff.1 hLookup
    exact ⟨name, (h.fields a).mem_toList_iff_get?.1 hMem, hw⟩

/-! ## Containers with children that pair up -/

section Alike

variable {h : Heap} {R : Value → Value → Prop}

theorem alike_other {v w : Value} (hvw : ∀ a b, v = .container a → w = .container b → False) :
    Alike h R v w ↔ (v == w) = true := by
  rw [Alike]
  · exact fun a b hv hw => hvw _ _ hv hw
  · exact fun a b hv hw => hvw _ _ hv hw

theorem alike_self (h : Heap) (R : Value → Value → Prop) (c : Container) :
    Alike h R (.container c) (.container c) := by
  cases c <;> exact .inl rfl

theorem alike_of_pairChildren {a b : Container} {children : List (Value × Value)}
    (hp : pairChildren h a b = some children) (hChildren : ∀ p ∈ children, R p.1 p.2) :
    Alike h R (.container a) (.container b) := by
  match a, b, hp with
  | .object a, .object b, hp =>
    obtain ⟨hNames, hValues⟩ := pairChildren_object hp
    exact .inr ⟨hNames, fun name v w hv hw => hChildren _ (hValues name v w hv hw)⟩
  | .array a, .array b, hp =>
    rw [pairChildren, Option.ite_none_right_eq_some] at hp
    obtain ⟨hLength, hZip⟩ := hp
    cases hZip
    exact .inr (List.forall₂_iff_zip.2 ⟨hLength, fun {v w} hMem => hChildren (v, w) hMem⟩)

/-- Different containers that are alike have children that pair up in the relation. -/
theorem exists_pairChildren {a b : Container}
    (hAlike : Alike h R (.container a) (.container b)) (hab : a ≠ b) :
    ∃ children, pairChildren h a b = some children ∧ ∀ p ∈ children, R p.1 p.2 := by
  match a, b, hAlike with
  | .object a, .object b, hAlike =>
    obtain ⟨hNames, hValues⟩ := hAlike.resolve_left fun hEq => hab (congrArg _ hEq)
    obtain ⟨children, hp, hChildren⟩ := pairChildren_of_sameNames hNames
    refine ⟨children, hp, fun p hMem => ?_⟩
    obtain ⟨name, hv, hw⟩ := hChildren p hMem
    exact hValues name _ _ hv hw
  | .array a, .array b, hAlike =>
    have hItems := hAlike.resolve_left fun hEq => hab (congrArg _ hEq)
    refine ⟨(h.items a).zip (h.items b), ?_, fun p hMem => List.forall₂_zip hItems hMem⟩
    rw [pairChildren, if_pos hItems.length_eq]
  | .object a, .array b, hAlike => simp [Alike, BEq.beq, Value.strictEq] at hAlike
  | .array a, .object b, hAlike => simp [Alike, BEq.beq, Value.strictEq] at hAlike

end Alike

/-! ## A comparison that ends well -/

/-- Nothing about the two values is left to compare, given the pairs assumed equal. -/
def Settled (assumed : List Assumption) : Value → Value → Prop
  | .container a, .container b => a = b ∨ (a, b) ∈ assumed
  | v, w => (v == w) = true

theorem settled_other {assumed : List Assumption} {v w : Value}
    (hvw : ∀ a b, v = .container a → w = .container b → False) :
    Settled assumed v w ↔ (v == w) = true := by
  rw [Settled]
  exact hvw

/-- The children of a pair of containers are settled. -/
def Opened (h : Heap) (assumed : List Assumption) (p : Assumption) : Prop :=
  ∃ children, pairChildren h p.1 p.2 = some children ∧ ∀ q ∈ children, Settled assumed q.1 q.2

/-- After a comparison that ends well, no assumption is lost, all that waited is settled, and every
new assumption has been opened and its children settled. -/
theorem settled_of_agree {h : Heap} {assumed final : List Assumption}
    {waiting : List (Value × Value)} (hAgree : agree h assumed waiting = some final) :
    assumed ⊆ final ∧ (∀ p ∈ waiting, Settled final p.1 p.2) ∧
      ∀ p ∈ final, p ∈ assumed ∨ Opened h final p := by
  induction assumed, waiting using agree.induct h with
  | case1 assumed =>
    rw [agree] at hAgree
    cases hAgree
    exact ⟨fun _ hp => hp, by simp, fun p hp => .inl hp⟩
  | case2 assumed a b rest hab ih =>
    -- what is assumed now is still assumed at the end
    rw [agree_skip hab] at hAgree
    obtain ⟨hSub, hWaiting, hFinal⟩ := ih hAgree
    refine ⟨hSub, List.forall_mem_cons.2 ⟨?_, hWaiting⟩, hFinal⟩
    exact hab.imp id fun hMem => hSub hMem
  | case3 assumed a b rest hab hp =>
    rw [agree_differ hab hp] at hAgree
    simp at hAgree
  | case4 assumed a b rest hab children hp ih =>
    rw [agree_open hab hp] at hAgree
    obtain ⟨hSub, hWaiting, hFinal⟩ := ih hAgree
    obtain ⟨hChildren, hRest⟩ := List.forall_mem_append.1 hWaiting
    refine ⟨fun p hMem => hSub (List.mem_cons_of_mem _ hMem),
      List.forall_mem_cons.2 ⟨.inr (hSub List.mem_cons_self), hRest⟩, fun p hMem => ?_⟩
    -- the pair opened here is the one new assumption of this step
    rcases hFinal p hMem with hOld | hOpened
    · rcases List.mem_cons.1 hOld with rfl | hOld
      · exact .inr ⟨children, hp, hChildren⟩
      · exact .inl hOld
    · exact .inr hOpened
  | case5 assumed v w rest hvw hEq ih =>
    rw [agree_other hvw, if_pos hEq] at hAgree
    obtain ⟨hSub, hWaiting, hFinal⟩ := ih hAgree
    exact ⟨hSub, List.forall_mem_cons.2 ⟨(settled_other hvw).2 hEq, hWaiting⟩, hFinal⟩
  | case6 assumed v w rest hvw hEq =>
    rw [agree_other hvw, if_neg hEq] at hAgree
    simp at hAgree

/-- Where every assumption has been opened, what is settled is a bisimulation. -/
theorem bisimulation_settled {h : Heap} {final : List Assumption}
    (hOpened : ∀ p ∈ final, Opened h final p) : Bisimulation h (Settled final) := by
  intro v w hSettled
  by_cases hvw : ∃ a b, v = .container a ∧ w = .container b
  -- two containers are one, or a pair that has been opened
  · obtain ⟨a, b, rfl, rfl⟩ := hvw
    rcases hSettled with rfl | hMem
    · exact alike_self h _ a
    · obtain ⟨children, hp, hChildren⟩ := hOpened _ hMem
      exact alike_of_pairChildren hp hChildren
  -- for all other values settled and alike are the same
  · have hOther : ∀ a b, v = .container a → w = .container b → False :=
      fun a b hv hw => hvw ⟨a, b, hv, hw⟩
    exact (alike_other hOther).2 ((settled_other hOther).1 hSettled)

/-! ## Related values never fail -/

/-- Whatever is assumed, a comparison of pairs in a bisimulation ends well. -/
theorem isSome_agree {h : Heap} {R : Value → Value → Prop} (hR : Bisimulation h R)
    (assumed : List Assumption) (waiting : List (Value × Value))
    (hWaiting : ∀ p ∈ waiting, R p.1 p.2) : (agree h assumed waiting).isSome = true := by
  induction assumed, waiting using agree.induct h with
  | case1 assumed =>
    rw [agree]
    rfl
  | case2 assumed a b rest hab ih =>
    rw [agree_skip hab]
    exact ih (List.forall_mem_cons.1 hWaiting).2
  | case3 assumed a b rest hab hp =>
    -- related containers have children that pair up
    have hAlike := hR _ _ (List.forall_mem_cons.1 hWaiting).1
    obtain ⟨children, hp', -⟩ := exists_pairChildren hAlike fun hEq => hab (.inl hEq)
    rw [hp] at hp'
    simp at hp'
  | case4 assumed a b rest hab children hp ih =>
    obtain ⟨hFirst, hRest⟩ := List.forall_mem_cons.1 hWaiting
    obtain ⟨children', hp', hChildren⟩ :=
      exists_pairChildren (hR _ _ hFirst) fun hEq => hab (.inl hEq)
    rw [hp] at hp'
    cases hp'
    rw [agree_open hab hp]
    exact ih (List.forall_mem_append.2 ⟨hChildren, hRest⟩)
  | case5 assumed v w rest hvw hEq ih =>
    rw [agree_other hvw, if_pos hEq]
    exact ih (List.forall_mem_cons.1 hWaiting).2
  | case6 assumed v w rest hvw hEq =>
    exact absurd ((alike_other hvw).1 (hR _ _ (List.forall_mem_cons.1 hWaiting).1)) hEq

/-- Deep equality holds of two values exactly if some bisimulation does. Assumptions that are never
taken back neither make it hold too often nor fail too often. -/
theorem structuralEq_iff_bisimilar (h : Heap) (a b : Value) :
    structuralEq h a b = true ↔ ∃ R, Bisimulation h R ∧ R a b := by
  constructor
  -- the relation is what the comparison has settled
  · intro hEq
    obtain ⟨final, hAgree⟩ := Option.isSome_iff_exists.1 hEq
    obtain ⟨-, hWaiting, hFinal⟩ := settled_of_agree hAgree
    refine ⟨Settled final, bisimulation_settled fun p hp => ?_,
      hWaiting (a, b) (List.mem_singleton_self _)⟩
    exact (hFinal p hp).resolve_left (List.not_mem_nil)
  · rintro ⟨R, hR, hab⟩
    refine isSome_agree hR [] [(a, b)] fun p hp => ?_
    rw [List.mem_singleton.1 hp]
    exact hab

end DocGraph.Search
