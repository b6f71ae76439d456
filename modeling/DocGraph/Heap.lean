import DocGraph.Fields
import DocGraph.Index
import DocGraph.Unmarked
import DocGraph.Value

/-!
# DocGraph: the heap of containers

Objects and arrays live in a heap, each kind in a store of its own, and are named by handles. A
handle that names nothing stands for an empty container, so every function below is total and no
invariant on handles is needed.

* `entries` lists the children of a container, `ownField` looks one up by the text of its key;
  `ownField_of_mem_entries` says that every child listed is found.
* `remaining` counts the containers outside a set: what every walk through the graph uses up.
  `remaining_cons_lt` and `entries_eq_nil` say why a walk that marks what it enters ends.
-/

namespace DocGraph

/-- The containers of a document graph; a container's identity is its place in its store. -/
structure Heap where
  objects : Array (Fields Value)
  arrays : Array (List Value)

namespace Heap

def empty : Heap := ⟨#[], #[]⟩

/-- The fields of an object. -/
def fields (h : Heap) (id : Nat) : Fields Value :=
  h.objects[id]?.getD .empty

/-- The elements of an array. -/
def items (h : Heap) (id : Nat) : List Value :=
  h.arrays[id]?.getD []

/-- The children of a container: fields in insertion order, elements by position. -/
def entries (h : Heap) : Container → List (Key × Value)
  | .object id => (h.fields id).toList.map fun (name, v) => (.field name, v)
  | .array id => (h.items id).zipIdx.map fun (v, position) => (.index position, v)

/-- The child whose key reads `key`; in an array only the canonical text of a position does. -/
def ownField (h : Heap) (c : Container) (key : String) : Option Value :=
  match c with
  | .object id => (h.fields id).get? key
  | .array id => (Index.parse? key).bind fun position => (h.items id)[position]?

/-- The number of children. -/
def size (h : Heap) (c : Container) : Nat :=
  match c with
  | .object id => (h.fields id).size
  | .array id => (h.items id).length

theorem mem_entries_object_iff {h : Heap} {id : Nat} {key : Key} {v : Value} :
    (key, v) ∈ h.entries (.object id) ↔
      ∃ name, key = .field name ∧ (name, v) ∈ (h.fields id).toList := by
  simp only [entries, List.mem_map, Prod.mk.injEq, Prod.exists]
  constructor
  · rintro ⟨name, _, hMem, rfl, rfl⟩
    exact ⟨name, rfl, hMem⟩
  · rintro ⟨name, rfl, hMem⟩
    exact ⟨name, v, hMem, rfl, rfl⟩

theorem mem_entries_array_iff {h : Heap} {id : Nat} {key : Key} {v : Value} :
    (key, v) ∈ h.entries (.array id) ↔
      ∃ position, key = .index position ∧ (h.items id)[position]? = some v := by
  simp only [entries, List.mem_map, Prod.mk.injEq, Prod.exists, List.mem_zipIdx_iff_getElem?]
  constructor
  · rintro ⟨_, position, hItem, rfl, rfl⟩
    exact ⟨position, rfl, hItem⟩
  · rintro ⟨position, rfl, hItem⟩
    exact ⟨v, position, hItem, rfl, rfl⟩

/-- The text of a child's key finds the child, in an array of a length that a machine word holds. -/
theorem ownField_of_mem_entries {h : Heap} {c : Container} {key : Key} {v : Value}
    (hSize : c.isArray = true → h.size c < Index.bound) (hEntry : (key, v) ∈ h.entries c) :
    h.ownField c key.text = some v := by
  cases c with
  | object id =>
    obtain ⟨name, rfl, hMem⟩ := mem_entries_object_iff.1 hEntry
    exact (h.fields id).mem_toList_iff_get?.1 hMem
  | array id =>
    obtain ⟨position, rfl, hItem⟩ := mem_entries_array_iff.1 hEntry
    have hPosition : position < (h.items id).length := (List.getElem?_eq_some_iff.1 hItem).1
    have hParse : Index.parse? (toString position) = some position :=
      Index.parse?_toString (Nat.lt_trans hPosition (hSize rfl))
    rw [ownField, Key.text, hParse]
    exact hItem

/-! ## Building -/

def newObject (h : Heap) (fields : Fields Value) : Container × Heap :=
  (.object h.objects.size, { h with objects := h.objects.push fields })

def newArray (h : Heap) (items : List Value) : Container × Heap :=
  (.array h.arrays.size, { h with arrays := h.arrays.push items })

/-- Binds a field of an object. -/
def insert (h : Heap) (id : Nat) (name : String) (value : Value) : Heap :=
  { h with objects := h.objects.modify id (·.insert name value) }

/-- Adds an element at the end of an array. -/
def push (h : Heap) (id : Nat) (value : Value) : Heap :=
  { h with arrays := h.arrays.modify id (· ++ [value]) }

/-- Replaces an element of an array; `none` if there is no such element. -/
def set? (h : Heap) (id position : Nat) (value : Value) : Option Heap :=
  if position < (h.items id).length then
    some { h with arrays := h.arrays.modify id (·.set position value) }
  else
    none

/-! ## Counting what is left -/

/-- Every container of the heap. -/
def containers (h : Heap) : List Container :=
  (List.range h.objects.size).map .object ++ (List.range h.arrays.size).map .array

/-- How many containers of the heap are not in `seen`. -/
def remaining (h : Heap) (seen : List Container) : Nat :=
  unmarked h.containers seen

theorem object_mem_containers {h : Heap} {id : Nat} :
    .object id ∈ h.containers ↔ id < h.objects.size := by
  simp [containers]

theorem array_mem_containers {h : Heap} {id : Nat} :
    .array id ∈ h.containers ↔ id < h.arrays.size := by
  simp [containers]

theorem entries_eq_nil {h : Heap} {c : Container} (hc : c ∉ h.containers) : h.entries c = [] := by
  cases c with
  | object id =>
    rw [object_mem_containers] at hc
    simp [entries, fields, hc, Fields.empty]
  | array id =>
    rw [array_mem_containers] at hc
    simp [entries, items, hc]

theorem remaining_cons_le (h : Heap) (c : Container) (seen : List Container) :
    h.remaining (c :: seen) ≤ h.remaining seen :=
  unmarked_cons_le h.containers c seen

theorem remaining_cons_lt {h : Heap} {c : Container} {seen : List Container}
    (hc : c ∈ h.containers) (hs : c ∉ seen) : h.remaining (c :: seen) < h.remaining seen :=
  unmarked_cons_lt hc hs

end Heap

end DocGraph
