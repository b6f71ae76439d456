import DocGraph.Import
import DocGraph.Proofs.Expansion

/-!
# DocGraph: from trees to graphs and back

A tree is loaded by placing fresh containers on the heap, and a graph is written by following its
edges. Loading a tree and writing it again gives the tree, with the order of its members and the
kind of its numbers, if a graph can hold its numbers at all. Writing a graph and loading the tree
gives a copy that shares nothing, and the copy equals the original by content if the tree holds all
of it: no cycle was cut, nothing absent left out, and no number became null.

Both rest on one relation, that a value expands to a tree: loading a tree makes a value that expands
to it, and of two values that expand to one tree nothing can be told apart but what they share.

* `Extends.expands`: what a value expands to stays as it is when containers are added.
* `load_expands`: a tree loaded expands to this tree, and the heap keeps what it has.
* `Expands.exact`: what a value expands to is a tree that a graph can hold.
* `load_toJson_round_trip`: the two directions.
-/

namespace DocGraph

/-- A tree that a graph can hold as it is: whole numbers fit 64 signed bits, other numbers are
finite, and the members of an object have different names. -/
inductive Json.Exact : Json → Prop
  | null : Exact .null
  | bool (b : Bool) : Exact (.bool b)
  | integer {n : Int} : fitsInt64 n = true → Exact (.number (.integer n))
  | float {x : Float} : x.isFinite = true → Exact (.number (.float x))
  | text (s : String) : Exact (.text s)
  | array {items : List Json} : (∀ t ∈ items, Exact t) → Exact (.array items)
  | object {members : List (String × Json)} : (members.map Prod.fst).Nodup →
      (∀ name t, (name, t) ∈ members → Exact t) → Exact (.object members)

/-! ## Numbers -/

theorem fitsInt64_toInt (i : Int64) : fitsInt64 i.toInt = true := by
  have hMin := Int64.minValue_le_toInt i
  have hMax := Int64.toInt_le i
  rw [fitsInt64, Bool.and_eq_true, decide_eq_true_eq, decide_eq_true_eq]
  exact ⟨hMin, hMax⟩

theorem toInt_ofInt_of_fits {n : Int} (hn : fitsInt64 n = true) : (Int64.ofInt n).toInt = n := by
  rw [fitsInt64, Bool.and_eq_true, decide_eq_true_eq, decide_eq_true_eq] at hn
  obtain ⟨hMin, hMax⟩ := hn
  have hMinValue : Int64.minValue.toInt = -2 ^ 63 := by decide
  have hMaxValue : Int64.maxValue.toInt = 2 ^ 63 - 1 := by decide
  exact Int64.toInt_ofInt_of_le (by omega) (by omega)

namespace Heap

/-! ## Heaps that grow -/

/-- The second heap has the containers of the first, and perhaps more behind them. -/
def Extends (h k : Heap) : Prop :=
  ∃ objects arrays, k = ⟨h.objects ++ objects, h.arrays ++ arrays⟩

theorem Extends.refl (h : Heap) : h.Extends h :=
  ⟨#[], #[], by rw [Array.append_empty, Array.append_empty]⟩

theorem Extends.trans {h k l : Heap} (hk : h.Extends k) (hl : k.Extends l) : h.Extends l := by
  obtain ⟨objects, arrays, rfl⟩ := hk
  obtain ⟨objects', arrays', rfl⟩ := hl
  exact ⟨objects ++ objects', arrays ++ arrays', by rw [Array.append_assoc, Array.append_assoc]⟩

section Extends

variable {h k : Heap}

theorem Extends.object (hk : h.Extends k) {id : Nat} (hid : .object id ∈ h.containers) :
    .object id ∈ k.containers ∧ k.fields id = h.fields id := by
  obtain ⟨objects, arrays, rfl⟩ := hk
  rw [object_mem_containers] at hid
  constructor
  · rw [object_mem_containers, Array.size_append]
    omega
  · rw [fields, fields, Array.getElem?_append_left hid]

theorem Extends.array (hk : h.Extends k) {id : Nat} (hid : .array id ∈ h.containers) :
    .array id ∈ k.containers ∧ k.items id = h.items id := by
  obtain ⟨objects, arrays, rfl⟩ := hk
  rw [array_mem_containers] at hid
  constructor
  · rw [array_mem_containers, Array.size_append]
    omega
  · rw [items, items, Array.getElem?_append_left hid]

/-- What a value expands to stays as it is when containers are added. -/
theorem Extends.expands (hk : h.Extends k) {v : Value} {t : Json} (hv : h.Expands v t) :
    k.Expands v t := by
  induction hv with
  | null => exact .null
  | bool b => exact .bool b
  | integer hi => exact .integer hi
  | float hFinite => exact .float hFinite
  | text s => exact .text s
  | object hPlaced hNames _ ih =>
    obtain ⟨hPlaced', hFields⟩ := hk.object hPlaced
    refine .object hPlaced' (by rw [hFields, hNames]) fun name v t hMem hMember => ?_
    rw [hFields] at hMem
    exact ih name v t hMem hMember
  | array hPlaced hLength _ ih =>
    obtain ⟨hPlaced', hItems⟩ := hk.array hPlaced
    refine .array hPlaced' (by rw [hItems, hLength]) fun position v t hItem ht => ?_
    rw [hItems] at hItem
    exact ih position v t hItem ht

end Extends

theorem extends_newObject (h : Heap) (f : Fields Value) : h.Extends (h.newObject f).2 :=
  ⟨#[f], #[], by rw [newObject, Array.append_empty, Array.push_eq_append]⟩

theorem extends_newArray (h : Heap) (values : List Value) : h.Extends (h.newArray values).2 :=
  ⟨#[], #[values], by rw [newArray, Array.append_empty, Array.push_eq_append]⟩

theorem fields_newObject (h : Heap) (f : Fields Value) :
    (h.newObject f).2.fields h.objects.size = f := by
  simp [newObject, fields]

theorem items_newArray (h : Heap) (values : List Value) :
    (h.newArray values).2.items h.arrays.size = values := by
  simp [newArray, items]

/-- A new object expands to the members that its fields expand to. -/
theorem expands_newObject {h : Heap} {f : Fields Value} {members : List (String × Json)}
    (hNames : members.map Prod.fst = f.toList.map Prod.fst)
    (hFields : ∀ name v t, (name, v) ∈ f.toList → (name, t) ∈ members → h.Expands v t) :
    (h.newObject f).2.Expands (.container (h.newObject f).1) (.object members) := by
  have hNew := fields_newObject h f
  refine .object ?_ (by rw [hNew, hNames]) fun name v t hMem hMember => ?_
  · rw [object_mem_containers, newObject, Array.size_push]
    omega
  · rw [hNew] at hMem
    exact (extends_newObject h f).expands (hFields name v t hMem hMember)

/-- A new array expands to the items that its elements expand to. -/
theorem expands_newArray {h : Heap} {values : List Value} {items : List Json}
    (hItems : List.Forall₂ h.Expands values items) :
    (h.newArray values).2.Expands (.container (h.newArray values).1) (.array items) := by
  have hNew := items_newArray h values
  obtain ⟨hLength, hGet⟩ := List.forall₂_iff_get.1 hItems
  refine .array ?_ (by rw [hNew, hLength]) fun position v t hItem ht => ?_
  · rw [array_mem_containers, newArray, Array.size_push]
    omega
  · rw [hNew] at hItem
    obtain ⟨hn, rfl⟩ := List.getElem?_eq_some_iff.1 hItem
    obtain ⟨hn', rfl⟩ := List.getElem?_eq_some_iff.1 ht
    exact (extends_newArray h values).expands (hGet position hn hn')

end Heap

/-! ## Loading a tree -/

/-- A tree loaded expands to this tree, and the heap keeps the containers that it has. -/
def Json.Loads (t : Json) : Prop :=
  ∀ h : Heap, h.Extends (t.load h).2 ∧ (t.load h).2.Expands (t.load h).1 t

theorem loadItems_expands {items : List Json} (hItems : ∀ t ∈ items, t.Loads) (h : Heap) :
    h.Extends (Json.loadItems h items).2 ∧
      List.Forall₂ (Json.loadItems h items).2.Expands (Json.loadItems h items).1 items := by
  induction items generalizing h with
  | nil => exact ⟨.refl h, .nil⟩
  | cons t items ih =>
    obtain ⟨hHead, hTail⟩ := List.forall_mem_cons.1 hItems
    obtain ⟨hExtends, hExpands⟩ := hHead h
    obtain ⟨hExtends', hForall⟩ := ih hTail (t.load h).2
    -- the items behind are placed later, which leaves the first one as it is
    exact ⟨hExtends.trans hExtends', .cons (hExtends'.expands hExpands) hForall⟩

theorem loadMembers_expands {members : List (String × Json)}
    (hMembers : ∀ name t, (name, t) ∈ members → t.Loads) (h : Heap) :
    h.Extends (Json.loadMembers h members).2 ∧
      List.Forall₂ (fun e m => m.1 = e.1 ∧ (Json.loadMembers h members).2.Expands e.2 m.2)
        (Json.loadMembers h members).1 members := by
  induction members generalizing h with
  | nil => exact ⟨.refl h, .nil⟩
  | cons m members ih =>
    obtain ⟨name, t⟩ := m
    obtain ⟨hExtends, hExpands⟩ := hMembers name t List.mem_cons_self h
    obtain ⟨hExtends', hForall⟩ :=
      ih (fun name t hMem => hMembers name t (List.mem_cons_of_mem _ hMem)) (t.load h).2
    exact ⟨hExtends.trans hExtends', .cons ⟨rfl, hExtends'.expands hExpands⟩ hForall⟩

section SideBySide

variable {α β : Type} {R : α → β → Prop} {l : List (String × α)} {m : List (String × β)}

theorem names_eq_of_forall₂ (hForall : List.Forall₂ (fun a b => b.1 = a.1 ∧ R a.2 b.2) l m) :
    m.map Prod.fst = l.map Prod.fst := by
  induction hForall with
  | nil => rfl
  | cons hHead _ ih => rw [List.map_cons, List.map_cons, hHead.1, ih]

/-- Where names are different, what stands under one name stands side by side. -/
theorem rel_of_forall₂ (hForall : List.Forall₂ (fun a b => b.1 = a.1 ∧ R a.2 b.2) l m)
    (hNodup : (m.map Prod.fst).Nodup) {name : String} {a : α} {b : β} (ha : (name, a) ∈ l)
    (hb : (name, b) ∈ m) : R a b := by
  induction hForall with
  | nil => contradiction
  | @cons e e' l m hHead hRest ih =>
    rw [List.map_cons, List.nodup_cons] at hNodup
    have hNames := names_eq_of_forall₂ hRest
    rcases List.mem_cons.1 ha with rfl | ha <;> rcases List.mem_cons.1 hb with rfl | hb
    · exact hHead.2
    · exact absurd (List.mem_map.2 ⟨_, hb, hHead.1.symm⟩) hNodup.1
    · rw [hNames] at hNodup
      exact absurd (List.mem_map_of_mem ha) hNodup.1
    · exact ih hNodup.2 ha hb

end SideBySide

theorem load_expands {t : Json} (ht : t.Exact) : t.Loads := by
  induction ht with
  | null => exact fun h => ⟨.refl h, .null⟩
  | bool b => exact fun h => ⟨.refl h, .bool b⟩
  | @integer n hn =>
    intro h
    refine ⟨.refl h, ?_⟩
    rw [Json.load, Number.ofNumeral, if_pos hn]
    exact .integer (toInt_ofInt_of_fits hn)
  | float hFinite => exact fun h => ⟨.refl h, .float hFinite⟩
  | text s => exact fun h => ⟨.refl h, .text s⟩
  | @array items _ ih =>
    intro h
    obtain ⟨hExtends, hForall⟩ := loadItems_expands ih h
    exact ⟨hExtends.trans (Heap.extends_newArray _ _), Heap.expands_newArray hForall⟩
  | @object members hNodup _ ih =>
    intro h
    obtain ⟨hExtends, hForall⟩ := loadMembers_expands ih h
    have hNames := names_eq_of_forall₂ hForall
    -- the names of the members are different, so binding them one by one keeps them all
    have hList : (Fields.ofList (Json.loadMembers h members).1).toList =
        (Json.loadMembers h members).1 :=
      Fields.toList_ofList (hNames ▸ hNodup)
    refine ⟨hExtends.trans (Heap.extends_newObject _ _), Heap.expands_newObject ?_ ?_⟩
    · rw [hList, hNames]
    · intro name v t hMem hMember
      rw [hList] at hMem
      exact rel_of_forall₂ hForall hNodup hMem hMember

/-- What a value expands to can be held by a graph. -/
theorem Heap.Expands.exact {h : Heap} {v : Value} {t : Json} (hv : h.Expands v t) : t.Exact := by
  induction hv with
  | null => exact .null
  | bool b => exact .bool b
  | @integer i n hi => exact .integer (hi ▸ fitsInt64_toInt i)
  | float hFinite => exact .float hFinite
  | text s => exact .text s
  | @object id members _ hNames _ ih =>
    refine .object (hNames ▸ (h.fields id).nodup) fun name t hMember => ?_
    obtain ⟨v, hMem⟩ := exists_of_names hNames hMember
    exact ih name v t hMem hMember
  | @array id items _ hLength _ ih =>
    refine .array fun t hMem => ?_
    obtain ⟨position, ht⟩ := List.mem_iff_getElem?.1 hMem
    obtain ⟨v, hItem⟩ := exists_of_length hLength ht
    exact ih position v t hItem ht

/-! ## There and back -/

/-- A tree that a graph can hold is the tree that its graph is written as, with the same order of
members and the same kinds of numbers throughout. A value of which nothing is lost in a tree is
equal by content to the graph of its tree, beside it on the heap, and wherever a route leads from
the value to a container, a route with the same keys leads from the copy to a container with the
same keys in the same order. -/
theorem load_toJson_round_trip :
    (∀ (t : Json) (h : Heap), t.Exact → (t.load h).1.toJson (t.load h).2 = t) ∧
      ∀ (h : Heap) (v : Value), h.Lossless v →
        ∀ (copy : Value) (k : Heap), (v.toJson h).load h = (copy, k) →
          h.Extends k ∧ Search.structuralEq k copy v = true ∧
            ∀ edges c, h.Route v edges (.container c) →
              ∃ edges' d, k.Route copy edges' (.container d) ∧
                edges'.map Edge.key = edges.map Edge.key ∧ d.isArray = c.isArray ∧
                (k.entries d).map Prod.fst = (h.entries c).map Prod.fst := by
  constructor
  · intro t h ht
    exact (load_expands ht h).2.toJson_eq
  · intro h v hv copy k hLoad
    have hOriginal := Heap.lossless_iff_expands.1 hv
    obtain ⟨hExtends, hCopy⟩ := load_expands hOriginal.exact h
    rw [hLoad] at hExtends hCopy
    refine ⟨hExtends, ?_, fun edges c hRoute => ?_⟩
    · exact Heap.structuralEq_of_expands hCopy (hExtends.expands hOriginal)
    · exact Heap.Expands.exists_route hRoute hOriginal hCopy

/-- An object with an array of numbers and an empty object in it. -/
def nestedTree : Json :=
  .object [("b", .array [.number (.integer 1), .number (.float 1), .null]), ("a", .object [])]

theorem exact_nestedTree : nestedTree.Exact := by
  have hItems : Json.Exact (.array [.number (.integer 1), .number (.float 1), .null]) := by
    refine .array (List.forall_mem_cons.2 ⟨.integer (by decide), ?_⟩)
    exact List.forall_mem_cons.2 ⟨.float (by decide), List.forall_mem_singleton.2 .null⟩
  have hEmpty : Json.Exact (.object []) := .object .nil (by simp)
  refine .object (by decide) fun name t hMem => ?_
  rcases List.mem_cons.1 hMem with hPair | hMem
  · exact (Prod.mk.inj hPair).2 ▸ hItems
  · exact (Prod.mk.inj (List.mem_singleton.1 hMem)).2 ▸ hEmpty

/-- An array that holds one object twice. -/
def twiceHeap : Heap where
  objects := #[.ofList [("x", .number (.integer 1))]]
  arrays := #[[.container (.object 0), .container (.object 0)]]

theorem expands_twiceHeap : twiceHeap.Expands (.container (.array 0))
    (.array [.object [("x", .number (.integer 1))], .object [("x", .number (.integer 1))]]) := by
  have hShared : twiceHeap.Expands (.container (.object 0))
      (.object [("x", .number (.integer 1))]) := by
    refine .object (by decide) rfl fun name v t hMem hMember => ?_
    obtain ⟨-, rfl⟩ := Prod.mk.inj (List.mem_singleton.1 hMem)
    obtain ⟨-, rfl⟩ := Prod.mk.inj (List.mem_singleton.1 hMember)
    exact .integer rfl
  refine .array (by decide) rfl fun position v t hItem ht => ?_
  match position, hItem, ht with
  | 0, hItem, ht | 1, hItem, ht =>
    obtain rfl := Option.some.inj hItem
    obtain rfl := Option.some.inj ht
    exact hShared

/-- The heap with the copy of its array, where the object is copied twice. -/
def twiceLoaded : Heap where
  objects := #[.ofList [("x", .number (.integer 1))], .ofList [("x", .number (.integer 1))],
    .ofList [("x", .number (.integer 1))]]
  arrays := #[[.container (.object 0), .container (.object 0)],
    [.container (.object 1), .container (.object 2)]]

theorem load_twiceHeap : ((Value.container (.array 0)).toJson twiceHeap).load twiceHeap =
    (.container (.array 1), twiceLoaded) := by
  rw [expands_twiceHeap.toJson_eq]
  rfl

theorem load_toJson_round_trip_twice :
    (nestedTree.Exact ∧
      (nestedTree.load .empty).1.toJson (nestedTree.load .empty).2 = nestedTree) ∧
    twiceHeap.Lossless (.container (.array 0)) ∧
      ((Value.container (.array 0)).toJson twiceHeap).load twiceHeap =
        (.container (.array 1), twiceLoaded) ∧
      twiceHeap.Extends twiceLoaded ∧
      Search.structuralEq twiceLoaded (.container (.array 1)) (.container (.array 0)) = true := by
  obtain ⟨hTree, hGraph⟩ := load_toJson_round_trip
  have hLossless := expands_twiceHeap.lossless
  obtain ⟨hExtends, hEqual, -⟩ := hGraph _ _ hLossless _ _ load_twiceHeap
  exact ⟨⟨exact_nestedTree, hTree nestedTree .empty exact_nestedTree⟩, hLossless, load_twiceHeap,
    hExtends, hEqual⟩

end DocGraph
