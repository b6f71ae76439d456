import DocGraph.Proofs.Equality
import DocGraph.Proofs.Unfolding

/-!
# DocGraph: values that are trees in all but sharing

A value expands to a tree if following all its edges yields just this tree: every edge is shown, no
branch comes back to a container it has gone through, and each scalar has a counterpart in the tree.
Containers may be shared; each occurrence is a part of the tree of its own. `Expands` says this of
a value and a tree, one rule for each kind of value.

* `Expands.acyclic`: no cycle can be reached from a value that expands to a tree.
* `Expands.toJson_eq`: the tree that a value expands to is the tree it is written as.
* `lossless_iff_expands`: a value expands to a tree exactly if no cycle, nothing absent, and no
  number that is not finite can be reached from it.
* `Expands.exists_route`: values that expand to one tree have the same routes, over containers with
  the same keys in the same order.
* `structuralEq_of_expands`: and they are equal by content, whatever each of them shares.
-/

namespace DocGraph

/-! ## Lists side by side -/

section SideBySide

variable {α β : Type}

theorem exists_of_length {l : List α} {m : List β} (hLength : l.length = m.length) {n : Nat}
    {a : α} (ha : l[n]? = some a) : ∃ b, m[n]? = some b := by
  obtain ⟨hPosition, -⟩ := List.getElem?_eq_some_iff.1 ha
  exact ⟨_, List.getElem?_eq_getElem (hLength ▸ hPosition)⟩

theorem exists_of_names {l : List (String × α)} {m : List (String × β)}
    (hNames : l.map Prod.fst = m.map Prod.fst) {name : String} {a : α} (hMem : (name, a) ∈ l) :
    ∃ b, (name, b) ∈ m := by
  have hName : name ∈ m.map Prod.fst := by
    rw [← hNames]
    exact List.mem_map_of_mem hMem
  obtain ⟨⟨_, b⟩, hMem', rfl⟩ := List.mem_map.1 hName
  exact ⟨b, hMem'⟩

/-- Pairs with the names of others are these others, if what stands under each name is mapped to
what stands under it there. -/
theorem map_eq_of_names {f : α → β} {l : List (String × α)} {m : List (String × β)}
    (hNames : m.map Prod.fst = l.map Prod.fst)
    (hValues : ∀ name a b, (name, a) ∈ l → (name, b) ∈ m → f a = b) :
    l.map (fun e => (e.1, f e.2)) = m := by
  induction l generalizing m with
  | nil =>
    obtain rfl := List.map_eq_nil_iff.1 hNames
    rfl
  | cons e l ih =>
    cases m with
    | nil => contradiction
    | cons e' m =>
      obtain ⟨name, a⟩ := e
      obtain ⟨name', b⟩ := e'
      rw [List.map_cons, List.map_cons, List.cons.injEq] at hNames
      obtain ⟨rfl, hNames⟩ := hNames
      have hHead : f a = b := hValues _ a b List.mem_cons_self List.mem_cons_self
      have hTail := ih hNames fun name a b ha hb =>
        hValues name a b (List.mem_cons_of_mem _ ha) (List.mem_cons_of_mem _ hb)
      rw [List.map_cons, hTail, hHead]

end SideBySide

namespace Heap

/-- The tree holds all that can be reached from the value, in order. The containers on the way are
containers of the heap. -/
inductive Expands (h : Heap) : Value → Json → Prop
  | null : Expands h .null .null
  | bool (b : Bool) : Expands h (.bool b) (.bool b)
  | integer {i : Int64} {n : Int} : i.toInt = n →
      Expands h (.number (.integer i)) (.number (.integer n))
  | float {x : Float} : x.isFinite = true →
      Expands h (.number (.float x)) (.number (.float x))
  | text (s : String) : Expands h (.text s) (.text s)
  | object {id : Nat} {members : List (String × Json)} : .object id ∈ h.containers →
      members.map Prod.fst = (h.fields id).toList.map Prod.fst →
      (∀ name v t, (name, v) ∈ (h.fields id).toList → (name, t) ∈ members → Expands h v t) →
      Expands h (.container (.object id)) (.object members)
  | array {id : Nat} {items : List Json} : .array id ∈ h.containers →
      items.length = (h.items id).length →
      (∀ (position : Nat) v t, (h.items id)[position]? = some v → items[position]? = some t →
        Expands h v t) →
      Expands h (.container (.array id)) (.array items)

/-- No route from the value leads into a cycle. -/
def Acyclic (h : Heap) (v : Value) : Prop :=
  ∀ edges c loop, h.Route v edges (.container c) →
    h.Route (.container c) loop (.container c) → loop = []

/-- A route from the value leads to the container. -/
def Meets (h : Heap) (v : Value) (c : Container) : Prop :=
  ∃ edges, h.Route v edges (.container c)

section Routes

variable {h : Heap} {c d : Container} {key : Key} {v : Value}

theorem meets_self (h : Heap) (c : Container) : h.Meets (.container c) c :=
  ⟨[], .here _⟩

theorem Meets.of_child (hEntry : (key, v) ∈ h.entries c) (hMeets : h.Meets v d) :
    h.Meets (.container c) d := by
  obtain ⟨edges, hRoute⟩ := hMeets
  exact ⟨_, .step hEntry hRoute⟩

theorem Acyclic.child (hv : h.Acyclic (.container c)) (hEntry : (key, v) ∈ h.entries c) :
    h.Acyclic v :=
  fun _ _ _ hRoute hLoop => hv _ _ _ (.step hEntry hRoute) hLoop

/-- What has no cycle is not met again from its children. -/
theorem Acyclic.not_meets (hv : h.Acyclic (.container c)) (hEntry : (key, v) ∈ h.entries c) :
    ¬ h.Meets v c := by
  rintro ⟨edges, hRoute⟩
  have hLoop := hv [] c _ (.here _) (.step hEntry hRoute)
  contradiction

theorem acyclic_of_children
    (hChildren : ∀ key v, (key, v) ∈ h.entries c → h.Acyclic v) : h.Acyclic (.container c) := by
  intro edges d loop hRoute hLoop
  cases hRoute with
  | here =>
    -- a cycle through the container itself goes through one of its children
    cases hLoop with
    | here => rfl
    | step hEntry hRest =>
      have hAgain := hChildren _ _ hEntry _ _ _ hRest (.step hEntry hRest)
      contradiction
  | step hEntry hRest => exact hChildren _ _ hEntry _ _ _ hRest hLoop

theorem acyclic_scalar (hv : v.container? = none) : h.Acyclic v := by
  intro edges d loop hRoute _
  cases hRoute with
  | here => cases hv
  | step => cases hv

end Routes

/-! ## Children of values that expand -/

section Children

variable {h k : Heap} {c : Container} {v w : Value} {t : Json} {key : Key}

/-- Two values that expand to one tree, where the first is a container: the second is a container of
the same kind with the same keys in the same order, and children of one key expand to one tree. -/
theorem Expands.side_by_side (hv : h.Expands (.container c) t) (hw : k.Expands w t) :
    ∃ d, w = .container d ∧ d.isArray = c.isArray ∧
      (k.entries d).map Prod.fst = (h.entries c).map Prod.fst ∧
      ∀ key v, (key, v) ∈ h.entries c →
        ∃ u s, (key, u) ∈ k.entries d ∧ h.Expands v s ∧ k.Expands u s := by
  cases hv with
  | object _ hNames hFields =>
    cases hw with
    | @object id' _ _ hNames' hFields' =>
      refine ⟨.object id', rfl, rfl, ?_, fun key v hEntry => ?_⟩
      · rw [keys_object, keys_object, ← hNames, ← hNames']
      · obtain ⟨name, rfl, hMem⟩ := mem_entries_object_iff.1 hEntry
        obtain ⟨s, hMember⟩ := exists_of_names hNames.symm hMem
        obtain ⟨u, hMem'⟩ := exists_of_names hNames' hMember
        exact ⟨u, s, mem_entries_object_iff.2 ⟨name, rfl, hMem'⟩, hFields name v s hMem hMember,
          hFields' name u s hMem' hMember⟩
  | array _ hLength hItems =>
    cases hw with
    | @array id' _ _ hLength' hItems' =>
      refine ⟨.array id', rfl, rfl, ?_, fun key v hEntry => ?_⟩
      · rw [keys_array, keys_array, ← hLength, ← hLength']
      · obtain ⟨position, rfl, hItem⟩ := mem_entries_array_iff.1 hEntry
        obtain ⟨s, hs⟩ := exists_of_length hLength.symm hItem
        obtain ⟨u, hItem'⟩ := exists_of_length hLength' hs
        exact ⟨u, s, mem_entries_array_iff.2 ⟨position, rfl, hItem'⟩,
          hItems position v s hItem hs, hItems' position _ s hItem' hs⟩

theorem Expands.child (hv : h.Expands (.container c) t) (hEntry : (key, v) ∈ h.entries c) :
    ∃ s, h.Expands v s := by
  obtain ⟨_, _, _, _, hChildren⟩ := hv.side_by_side hv
  obtain ⟨_, s, _, hExpands, _⟩ := hChildren key v hEntry
  exact ⟨s, hExpands⟩

/-- Values that expand to one tree have the same routes, and the containers at the ends have the
same keys in the same order. -/
theorem Expands.exists_route {edges : List Edge} (hRoute : h.Route v edges (.container c))
    (hv : h.Expands v t) (hw : k.Expands w t) :
    ∃ edges' d, k.Route w edges' (.container d) ∧ edges'.map Edge.key = edges.map Edge.key ∧
      d.isArray = c.isArray ∧ (k.entries d).map Prod.fst = (h.entries c).map Prod.fst := by
  generalize hEnd : Value.container c = last at hRoute
  -- along the route, with a value on the other side that expands to the same tree at each step
  induction hRoute generalizing w t with
  | here =>
    subst hEnd
    obtain ⟨d, rfl, hKind, hKeys, -⟩ := hv.side_by_side hw
    exact ⟨[], d, .here _, rfl, hKind, hKeys⟩
  | step hEntry _ ih =>
    obtain ⟨d, rfl, -, -, hChildren⟩ := hv.side_by_side hw
    obtain ⟨u, s, hEntry', hExpands, hExpands'⟩ := hChildren _ _ hEntry
    obtain ⟨edges', e, hRoute', hEdges, hKind, hKeys⟩ := ih hExpands hExpands' hEnd
    refine ⟨_, e, .step hEntry' hRoute', ?_, hKind, hKeys⟩
    rw [List.map_cons, List.map_cons, hEdges]

end Children

/-! ## Trees that values expand to -/

section Tree

variable {h : Heap} {v : Value} {t : Json} {above : List Container}

theorem Expands.acyclic (hv : h.Expands v t) : h.Acyclic v := by
  induction hv with
  | null | bool | integer | float | text => exact acyclic_scalar rfl
  | object _ hNames _ ih =>
    refine acyclic_of_children fun key w hEntry => ?_
    obtain ⟨name, -, hMem⟩ := mem_entries_object_iff.1 hEntry
    obtain ⟨s, hMember⟩ := exists_of_names hNames.symm hMem
    exact ih name w s hMem hMember
  | array _ hLength _ ih =>
    refine acyclic_of_children fun key w hEntry => ?_
    obtain ⟨position, -, hItem⟩ := mem_entries_array_iff.1 hEntry
    obtain ⟨s, hs⟩ := exists_of_length hLength.symm hItem
    exact ih position w s hItem hs

theorem Expands.isAbsent_eq_false (hv : h.Expands v t) : v.isAbsent = false := by
  cases hv <;> rfl

/-- The children of a container meet nothing above it, nor the container itself. -/
theorem not_meets_child {c : Container} {key : Key} (hAcyclic : h.Acyclic (.container c))
    (hAbove : ∀ d ∈ above, ¬ h.Meets (.container c) d) (hEntry : (key, v) ∈ h.entries c) :
    ∀ d ∈ c :: above, ¬ h.Meets v d := by
  intro d hMem hMeets
  rcases List.mem_cons.1 hMem with rfl | hMem
  · exact hAcyclic.not_meets hEntry hMeets
  · exact hAbove d hMem (hMeets.of_child hEntry)

theorem Expands.toJson_above (hv : h.Expands v t) (hAbove : ∀ c ∈ above, ¬ h.Meets v c) :
    h.toJson above v = t := by
  -- no container above is met from here on, so the marker is never written
  induction hv generalizing above with
  | null | bool | text => rw [Heap.toJson]
  | integer hi => rw [Heap.toJson, Number.toJson, hi]
  | float hFinite => rw [Heap.toJson, Number.toJson, if_pos hFinite]
  | @object id members hPlaced hNames hFields ih =>
    have hAcyclic := (Expands.object hPlaced hNames hFields).acyclic
    have hShown : h.shownFields id = (h.fields id).toList := by
      refine List.filter_eq_self.2 fun e hMem => ?_
      obtain ⟨s, hMember⟩ := exists_of_names hNames.symm hMem
      simp [(hFields e.1 e.2 s hMem hMember).isAbsent_eq_false]
    have hMembers : (h.fields id).toList.map
        (fun e => (e.1, h.toJson (.object id :: above) e.2)) = members := by
      refine map_eq_of_names hNames fun name v s hMem hMember => ih name v s hMem hMember ?_
      exact not_meets_child hAcyclic hAbove (mem_entries_object_iff.2 ⟨name, rfl, hMem⟩)
    rw [Heap.toJson_object fun hMem => hAbove _ hMem (meets_self h _), hShown]
    exact congrArg Json.object hMembers
  | @array id items hPlaced hLength hItems ih =>
    have hAcyclic := (Expands.array hPlaced hLength hItems).acyclic
    have hAll : (h.items id).map (fun v => h.toJson (.array id :: above) v) = items := by
      refine List.ext_getElem (by rw [List.length_map, hLength]) fun n hn hn' => ?_
      have hPosition : n < (h.items id).length := hLength ▸ hn'
      have hItem := List.getElem?_eq_getElem hPosition
      rw [List.getElem_map]
      refine ih n _ _ hItem (List.getElem?_eq_getElem hn') ?_
      exact not_meets_child hAcyclic hAbove (mem_entries_array_iff.2 ⟨n, rfl, hItem⟩)
    rw [Heap.toJson_array fun hMem => hAbove _ hMem (meets_self h _), hAll]

theorem Expands.toJson_eq (hv : h.Expands v t) : v.toJson h = t :=
  hv.toJson_above (by simp)

end Tree

/-! ## Values of which nothing is lost -/

/-- Nothing that can be reached from the value is lost in a tree: there is no cycle, nothing absent,
and no number that is not finite. All containers are containers of the heap. -/
structure Lossless (h : Heap) (v : Value) : Prop where
  acyclic : h.Acyclic v
  placed : ∀ edges c, h.Route v edges (.container c) → c ∈ h.containers
  present : ∀ edges w, h.Route v edges w → w.isAbsent = false
  finite : ∀ edges x, h.Route v edges (.number (.float x)) → x.isFinite = true

section Lossless

variable {h : Heap} {v : Value} {t : Json} {above : List Container}

theorem Lossless.child {c : Container} {key : Key} (hv : h.Lossless (.container c))
    (hEntry : (key, v) ∈ h.entries c) : h.Lossless v where
  acyclic := hv.acyclic.child hEntry
  placed := fun _ _ hRoute => hv.placed _ _ (.step hEntry hRoute)
  present := fun _ _ hRoute => hv.present _ _ (.step hEntry hRoute)
  finite := fun _ _ hRoute => hv.finite _ _ (.step hEntry hRoute)

theorem Lossless.expands_toJson (hv : h.Lossless v) (hAbove : ∀ c ∈ above, ¬ h.Meets v c) :
    h.Expands v (h.toJson above v) := by
  induction above, v using Heap.toJson.induct h with
  | case1 above =>
    have hPresent := hv.present _ _ (.here _)
    contradiction
  | case2 above =>
    rw [Heap.toJson]
    exact .null
  | case3 above b =>
    rw [Heap.toJson]
    exact .bool b
  | case4 above n =>
    rw [Heap.toJson]
    cases n with
    | integer i => exact .integer rfl
    | float x =>
      have hFinite := hv.finite _ _ (.here _)
      rw [Number.toJson, if_pos hFinite]
      exact .float hFinite
  | case5 above s =>
    rw [Heap.toJson]
    exact .text s
  -- a container that is open above would be met again
  | case6 above c hMem => exact absurd (meets_self h c) (hAbove c hMem)
  | case7 above id hNew _ ih =>
    have hShown : h.shownFields id = (h.fields id).toList := by
      refine List.filter_eq_self.2 fun e hMem => ?_
      have hEntry := mem_entries_object_iff.2 ⟨e.1, rfl, hMem⟩
      simp [hv.present _ _ (.step hEntry (.here _))]
    rw [Heap.toJson_object hNew, hShown]
    refine .object (hv.placed _ _ (.here _)) (by rw [List.map_map]; rfl) ?_
    intro name w s hMem hMember
    obtain ⟨⟨name', w'⟩, hMem', hPair⟩ := List.mem_map.1 hMember
    obtain ⟨rfl, rfl⟩ := Prod.mk.inj hPair
    have hEntry' := mem_entries_object_iff.2 ⟨name', rfl, hMem'⟩
    -- the names are different, so it is the same field
    obtain rfl := value_unique (mem_entries_object_iff.2 ⟨name', rfl, hMem⟩) hEntry'
    exact ih name' w hMem (hv.child hEntry') (not_meets_child hv.acyclic hAbove hEntry')
  | case8 above id hNew _ ih =>
    rw [Heap.toJson_array hNew]
    refine .array (hv.placed _ _ (.here _)) (List.length_map _) ?_
    intro position w s hItem hs
    rw [List.getElem?_map, hItem, Option.map_some] at hs
    obtain rfl := Option.some.inj hs
    have hEntry := mem_entries_array_iff.2 ⟨position, rfl, hItem⟩
    exact ih w (List.mem_of_getElem? hItem) (hv.child hEntry)
      (not_meets_child hv.acyclic hAbove hEntry)

theorem Expands.of_route {w : Value} {edges : List Edge} (hRoute : h.Route v edges w)
    (hv : h.Expands v t) : ∃ s, h.Expands w s := by
  induction hRoute generalizing t with
  | here => exact ⟨t, hv⟩
  | step hEntry _ ih =>
    obtain ⟨s, hs⟩ := hv.child hEntry
    exact ih hs

theorem Expands.lossless (hv : h.Expands v t) : h.Lossless v where
  acyclic := hv.acyclic
  placed := by
    intro edges c hRoute
    obtain ⟨s, hs⟩ := hv.of_route hRoute
    cases hs with
    | object hPlaced => exact hPlaced
    | array hPlaced => exact hPlaced
  present := by
    intro edges w hRoute
    obtain ⟨s, hs⟩ := hv.of_route hRoute
    exact hs.isAbsent_eq_false
  finite := by
    intro edges x hRoute
    obtain ⟨s, hs⟩ := hv.of_route hRoute
    cases hs with
    | float hFinite => exact hFinite

theorem lossless_iff_expands : h.Lossless v ↔ h.Expands v (v.toJson h) := by
  constructor
  · exact fun hv => hv.expands_toJson (by simp)
  · exact Expands.lossless

end Lossless

/-! ## Equality by content -/

section Equality

variable {h : Heap}

theorem beq_self_of_isFinite {x : Float} (hx : x.isFinite = true) : (x == x) = true := by
  rw [Number.float_beq_self, Bool.not_eq_true']
  change x.toModel.unpack.isFinite = true at hx
  change x.toModel.unpack.isNaN = false
  cases hUnpacked : x.toModel.unpack with
  | notANumber =>
    rw [hUnpacked] at hx
    contradiction
  | infinity | zero | finite => rfl

/-- To expand to one tree is a relation that holds of values alike, children included. -/
theorem bisimulation_expands (h : Heap) :
    Search.Bisimulation h fun v w => ∃ t, h.Expands v t ∧ h.Expands w t := by
  rintro v w ⟨t, hv, hw⟩
  cases hv with
  | null =>
    cases hw
    rfl
  | bool b =>
    cases hw
    exact beq_self_eq_true b
  | @integer i n hi =>
    cases hw with
    | @integer j _ hj =>
      have hEq : i = j := Int64.toInt_inj.1 (hi.trans hj.symm)
      subst hEq
      exact beq_self_eq_true i
  | float hFinite =>
    cases hw
    exact beq_self_of_isFinite hFinite
  | text s =>
    cases hw
    exact beq_self_eq_true s
  | object _ hNames hFields =>
    cases hw with
    | object _ hNames' hFields' =>
      refine .inr ⟨fun name => ?_, fun name v w hv hw => ?_⟩
      · rw [Bool.eq_iff_iff, Search.contains_iff_mem_names, Search.contains_iff_mem_names, ← hNames,
          ← hNames']
      · have hMem := (Fields.mem_toList_iff_get? _).2 hv
        obtain ⟨s, hMember⟩ := exists_of_names hNames.symm hMem
        exact ⟨s, hFields name v s hMem hMember,
          hFields' name w s ((Fields.mem_toList_iff_get? _).2 hw) hMember⟩
  | array _ hLength hItems =>
    cases hw with
    | array _ hLength' hItems' =>
      refine .inr (List.forall₂_iff_get.2 ⟨hLength.symm.trans hLength', fun n hn hn' => ?_⟩)
      obtain ⟨s, hs⟩ := exists_of_length hLength.symm (List.getElem?_eq_getElem hn)
      exact ⟨s, hItems n _ s (List.getElem?_eq_getElem hn) hs,
        hItems' n _ s (List.getElem?_eq_getElem hn') hs⟩

/-- Values that expand to one tree are equal by content. -/
theorem structuralEq_of_expands {v w : Value} {t : Json} (hv : h.Expands v t)
    (hw : h.Expands w t) : Search.structuralEq h v w = true := by
  refine Search.isSome_agree (bisimulation_expands h) [] [(v, w)] fun p hp => ?_
  rw [List.mem_singleton.1 hp]
  exact ⟨t, hv, hw⟩

end Equality

end Heap

end DocGraph
