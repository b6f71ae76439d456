import DocGraph.Heap
import DocGraph.Json.Basic

/-!
# DocGraph: from graphs to trees

A graph is written as a tree by following every edge. A container that is already open further
up the same branch is replaced by a marker, so cycles are cut; one that is merely shared is
written in full each time. An absent field is left out, an absent element is null, and so is a
number that is not finite.

* `toJson_object` / `toJson_array` / `toJson_above`: the tree of a container, level by level.
-/

namespace DocGraph

/-- What stands for a container inside itself. -/
def circularMarker : String := "[Circular]"

def Number.toJson : Number → Json
  | .integer i => .number (.integer i.toInt)
  | .float x => if x.isFinite then .number (.float x) else .null

/-- The tree below `v` on a branch where the containers `above` are open. -/
def Heap.toJson (h : Heap) (above : List Container) (v : Value) : Json :=
  match v with
  | .absent => .null
  | .null => .null
  | .bool b => .bool b
  | .number n => n.toJson
  | .text s => .text s
  | .container c =>
    if _hc : c ∈ above then .text circularMarker
    else
      match c with
      | .object id =>
        .object ((h.fields id).toList.attach.filterMap fun ⟨(name, child), _hm⟩ =>
          if child.isAbsent then none else some (name, h.toJson (.object id :: above) child))
      | .array id =>
        .array ((h.items id).attach.map fun ⟨child, _hm⟩ => h.toJson (.array id :: above) child)
termination_by h.remaining above
decreasing_by
  -- an object with a field is in the heap, so opening it leaves fewer containers
  · refine Heap.remaining_cons_lt (Heap.object_mem_containers.2 ?_) _hc
    refine Decidable.byContradiction fun hn => ?_
    simp [Heap.fields, hn, Fields.empty] at _hm
  -- so is an array with an element
  · refine Heap.remaining_cons_lt (Heap.array_mem_containers.2 ?_) _hc
    refine Decidable.byContradiction fun hn => ?_
    simp [Heap.items, hn] at _hm

section Level

variable {h : Heap} {above : List Container}

theorem Heap.toJson_above {c : Container} (hc : c ∈ above) :
    h.toJson above (.container c) = .text circularMarker := by
  rw [Heap.toJson, dif_pos hc]

/-- The fields of an object that a tree shows. -/
def Heap.shownFields (h : Heap) (id : Nat) : List (String × Value) :=
  (h.fields id).toList.filter fun field => !field.2.isAbsent

theorem Heap.toJson_object {id : Nat} (hc : .object id ∉ above) :
    h.toJson above (.container (.object id)) =
      .object ((h.shownFields id).map fun (name, child) =>
        (name, h.toJson (.object id :: above) child)) := by
  rw [Heap.toJson, dif_neg hc]
  change Json.object ((h.fields id).toList.attach.filterMap _) = _
  rw [Heap.shownFields, ← List.filterMap_eq_map, List.filterMap_filter]
  conv => rhs; rw [← List.attach_map_subtype_val (h.fields id).toList, List.filterMap_map]
  congr 2
  funext ⟨⟨name, child⟩, hMem⟩
  cases hAbsent : child.isAbsent <;> simp [hAbsent]

theorem Heap.toJson_array {id : Nat} (hc : .array id ∉ above) :
    h.toJson above (.container (.array id)) =
      .array ((h.items id).map fun child => h.toJson (.array id :: above) child) := by
  rw [Heap.toJson, dif_neg hc]
  simp

end Level

/-- A value as a tree. -/
def Value.toJson (h : Heap) (v : Value) : Json :=
  h.toJson [] v

end DocGraph
