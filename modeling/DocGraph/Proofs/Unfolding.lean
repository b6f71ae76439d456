import DocGraph.Export
import DocGraph.Proofs.Walk
import Mathlib

/-!
# DocGraph: the tree of a graph is its unfolding, cut at cycles

A graph is unfolded into a tree by following all its edges from a value on; a cycle makes this tree
infinite. The tree that is written is that one, cut where a branch comes back to a container that it
has gone through. Nothing else is cut: what is merely shared is written out on every branch, for
what is open on one branch says nothing about another.

A branch is a `Route`, the list of the edges it follows. It is in the tree exactly if the owners of
its edges are different containers and it does not use a field that is absent.

* `child?_toJson_iff`: one step down the tree of a container.
* `at?_toJson_iff`: any number of steps down a tree, by induction on their keys.
* `drawn_toJson`: what the tree of a value looks like at its top.
* `toJson_unfolds`: which routes have a node in the tree, what stands there, and how long they are.
-/

namespace DocGraph

/-! ## Places in a tree -/

namespace Json

/-- The part of a tree that a key leads to. -/
def child? : Json → Key → Option Json
  | .object members, .field name => members.lookup name
  | .array items, .index position => items[position]?
  | _, _ => none

/-- The part of a tree that the keys lead to, one after the other. -/
def at? (t : Json) (keys : List Key) : Option Json :=
  keys.foldlM child? t

theorem at?_cons_iff {t u : Json} {key : Key} {keys : List Key} :
    t.at? (key :: keys) = some u ↔ ∃ s, t.child? key = some s ∧ s.at? keys = some u :=
  Option.bind_eq_some_iff

end Json

/-! ## Routes -/

/-- An entry of a container. -/
structure Edge where
  owner : Container
  key : Key
  value : Value

/-- The edge is not a field that is absent. -/
def Edge.Shown (e : Edge) : Prop :=
  ∀ name, e.key = .field name → e.value.isAbsent = false

theorem Edge.shown_index (c : Container) (position : Nat) (v : Value) :
    Edge.Shown ⟨c, .index position, v⟩ := by
  intro name hKey
  cases hKey

namespace Heap

/-- The edges lead from the first value to the second, each starting where the one before ends. -/
inductive Route (h : Heap) : Value → List Edge → Value → Prop
  | here (v : Value) : Route h v [] v
  | step {c : Container} {key : Key} {v w : Value} {edges : List Edge} :
      (key, v) ∈ h.entries c → Route h v edges w →
      Route h (.container c) (⟨c, key, v⟩ :: edges) w

/-- A container has one child under a key. -/
theorem value_unique {h : Heap} {c : Container} {key : Key} {v w : Value}
    (hv : (key, v) ∈ h.entries c) (hw : (key, w) ∈ h.entries c) : v = w :=
  congrArg Prod.snd (List.inj_on_of_nodup_map (h.nodup_keys c) hv hw rfl)

namespace Route

variable {h : Heap} {v w w' : Value} {edges edges' : List Edge}

/-- The keys decide which route is taken. -/
theorem unique (hRoute : h.Route v edges w) (hRoute' : h.Route v edges' w')
    (hKeys : edges.map Edge.key = edges'.map Edge.key) : edges = edges' ∧ w = w' := by
  induction hRoute generalizing edges' with
  | here =>
    obtain rfl := List.map_eq_nil_iff.1 hKeys.symm
    cases hRoute'
    exact ⟨rfl, rfl⟩
  | step hEntry _ ih =>
    cases hRoute' with
    | here => simp at hKeys
    | step hEntry' hRest' =>
      rw [List.map_cons, List.map_cons, List.cons.injEq] at hKeys
      obtain ⟨rfl, hRest⟩ := hKeys
      obtain rfl := value_unique hEntry hEntry'
      obtain ⟨rfl, rfl⟩ := ih hRest' hRest
      exact ⟨rfl, rfl⟩

/-- Every edge of a route is an entry of its owner. -/
theorem entry_of_mem (hRoute : h.Route v edges w) :
    ∀ e ∈ edges, (e.key, e.value) ∈ h.entries e.owner := by
  induction hRoute with
  | here => simp
  | step hEntry _ ih => exact List.forall_mem_cons.2 ⟨hEntry, ih⟩

end Route

end Heap

/-! ## Steps down a tree -/

section Tree

variable {h : Heap} {above : List Container}

/-- The tree of a scalar has no parts. -/
theorem child?_scalar {v : Value} (hv : v.container? = none) (key : Key) :
    (h.toJson above v).child? key = none := by
  cases v with
  | container c => simp [Value.container?] at hv
  | number n =>
    rw [Heap.toJson]
    cases n with
    | integer i => rfl
    | float x =>
      rw [Number.toJson]
      split <;> rfl
  | absent | null | bool | text =>
    rw [Heap.toJson]
    rfl

theorem child?_object_iff {id : Nat} (hOpen : .object id ∉ above) {key : Key} {t : Json} :
    (h.toJson above (.container (.object id))).child? key = some t ↔
      ∃ v, (key, v) ∈ h.entries (.object id) ∧ Edge.Shown ⟨.object id, key, v⟩ ∧
        t = h.toJson (.object id :: above) v := by
  rw [Heap.toJson_object hOpen]
  cases key with
  | index position => simp [Json.child?, Heap.mem_entries_object_iff]
  | field name =>
    -- the names of the fields shown are different, as are those of all fields
    have hShownNodup : ((h.shownFields id).map Prod.fst).Nodup :=
      (h.fields id).nodup.sublist (List.filter_sublist.map _)
    rw [Json.child?, Fields.lookup_eq_some_iff (by rw [List.map_map]; exact hShownNodup),
      List.mem_map]
    simp only [Heap.shownFields, List.mem_filter, Heap.mem_entries_object_iff]
    constructor
    · rintro ⟨⟨name', v⟩, ⟨hMem, hShown⟩, hEq⟩
      obtain ⟨rfl, rfl⟩ := Prod.mk.inj hEq
      exact ⟨v, ⟨name', rfl, hMem⟩, fun _ _ => by simpa using hShown, rfl⟩
    · rintro ⟨v, ⟨name', hKey, hMem⟩, hShown, rfl⟩
      cases hKey
      exact ⟨(name, v), ⟨hMem, by simp [hShown name rfl]⟩, rfl⟩

theorem child?_array_iff {id : Nat} (hOpen : .array id ∉ above) {key : Key} {t : Json} :
    (h.toJson above (.container (.array id))).child? key = some t ↔
      ∃ v, (key, v) ∈ h.entries (.array id) ∧ Edge.Shown ⟨.array id, key, v⟩ ∧
        t = h.toJson (.array id :: above) v := by
  rw [Heap.toJson_array hOpen]
  cases key with
  | field name => simp [Json.child?, Heap.mem_entries_array_iff]
  | index position =>
    rw [Json.child?, List.getElem?_map]
    simp only [Option.map_eq_some_iff, Heap.mem_entries_array_iff]
    constructor
    · rintro ⟨v, hItem, rfl⟩
      exact ⟨v, ⟨position, rfl, hItem⟩, Edge.shown_index _ _ v, rfl⟩
    · rintro ⟨v, ⟨position', hKey, hItem⟩, -, rfl⟩
      cases hKey
      exact ⟨v, hItem, rfl⟩

/-- One step down the tree of a container: to the tree of a child, with the container open. -/
theorem child?_toJson_iff {c : Container} {key : Key} {t : Json} :
    (h.toJson above (.container c)).child? key = some t ↔
      c ∉ above ∧ ∃ v, (key, v) ∈ h.entries c ∧ Edge.Shown ⟨c, key, v⟩ ∧
        t = h.toJson (c :: above) v := by
  by_cases hOpen : c ∈ above
  -- a marker has no parts
  · simp [Heap.toJson_above hOpen, Json.child?, hOpen]
  · simp only [hOpen, not_false_eq_true, true_and]
    cases c with
    | object id => exact child?_object_iff hOpen
    | array id => exact child?_array_iff hOpen

/-- The edges start at different containers, none of which is among those above. -/
structure Fresh (above : List Container) (edges : List Edge) : Prop where
  nodup : (edges.map Edge.owner).Nodup
  disjoint : ∀ e ∈ edges, e.owner ∉ above

theorem fresh_cons_iff {e : Edge} {edges : List Edge} :
    Fresh above (e :: edges) ↔ e.owner ∉ above ∧ Fresh (e.owner :: above) edges := by
  constructor
  · rintro ⟨hNodup, hDisjoint⟩
    rw [List.map_cons, List.nodup_cons] at hNodup
    obtain ⟨hHead, hTail⟩ := List.forall_mem_cons.1 hDisjoint
    refine ⟨hHead, hNodup.2, fun e' he' hMem => ?_⟩
    rcases List.mem_cons.1 hMem with hEq | hMem
    · exact hNodup.1 (hEq ▸ List.mem_map_of_mem he')
    · exact hTail e' he' hMem
  · rintro ⟨hHead, hNodup, hDisjoint⟩
    refine ⟨?_, List.forall_mem_cons.2 ⟨hHead, fun e' he' => ?_⟩⟩
    · rw [List.map_cons, List.nodup_cons]
      refine ⟨fun hMem => ?_, hNodup⟩
      obtain ⟨e', he', hEq⟩ := List.mem_map.1 hMem
      exact hDisjoint e' he' (hEq ▸ List.mem_cons_self)
    · exact fun hMem => hDisjoint e' he' (List.mem_cons_of_mem _ hMem)

/-- Any number of steps down a tree: along the routes that open no container twice and use no absent
field, each to the tree of the value at its end. -/
theorem at?_toJson_iff {v : Value} {keys : List Key} {t : Json} :
    (h.toJson above v).at? keys = some t ↔
      ∃ edges w, h.Route v edges w ∧ edges.map Edge.key = keys ∧ Fresh above edges ∧
        (∀ e ∈ edges, e.Shown) ∧ t = h.toJson ((edges.map Edge.owner).reverse ++ above) w := by
  induction keys generalizing v above with
  | nil =>
    constructor
    · intro hAt
      cases hAt
      exact ⟨[], v, .here v, rfl, ⟨.nil, by simp⟩, by simp, rfl⟩
    · rintro ⟨edges, w, hRoute, hKeys, -, -, rfl⟩
      obtain rfl := List.map_eq_nil_iff.1 hKeys
      cases hRoute
      rfl
  | cons key keys ih =>
    rw [Json.at?_cons_iff]
    constructor
    · rintro ⟨s, hChild, hAt⟩
      cases hv : v.container? with
      | none => simp [child?_scalar hv] at hChild
      | some c =>
        obtain rfl := Value.container?_eq_some_iff.1 hv
        obtain ⟨hAbove, u, hEntry, hShown, rfl⟩ := child?_toJson_iff.1 hChild
        obtain ⟨edges, w, hRoute, hKeys, hFresh, hAll, rfl⟩ := ih.1 hAt
        refine ⟨⟨c, key, u⟩ :: edges, w, .step hEntry hRoute, ?_,
          fresh_cons_iff.2 ⟨hAbove, hFresh⟩, List.forall_mem_cons.2 ⟨hShown, hAll⟩, ?_⟩
        · rw [List.map_cons, hKeys]
        · simp
    · rintro ⟨edges, w, hRoute, hKeys, hFresh, hAll, rfl⟩
      cases hRoute with
      | here => simp at hKeys
      | @step c key' u w edges hEntry hRest =>
        rw [List.map_cons, List.cons.injEq] at hKeys
        obtain ⟨rfl, hKeys⟩ := hKeys
        obtain ⟨hAbove, hFresh⟩ := fresh_cons_iff.1 hFresh
        obtain ⟨hShown, hAll⟩ := List.forall_mem_cons.1 hAll
        refine ⟨_, child?_toJson_iff.2 ⟨hAbove, u, hEntry, hShown, rfl⟩, ?_⟩
        exact ih.2 ⟨edges, w, hRest, hKeys, hFresh, hAll, by simp⟩

end Tree

/-! ## What stands in a tree -/

/-- What stands in a tree for the value at the end of a route over the containers `met`. An object
shows the fields that are not absent and an array all elements, in order; what these are is said by
the routes one edge longer. -/
inductive Drawn (h : Heap) (met : List Container) : Value → Json → Prop
  | absent : Drawn h met .absent .null
  | null : Drawn h met .null .null
  | bool (b : Bool) : Drawn h met (.bool b) (.bool b)
  | integer (i : Int64) : Drawn h met (.number (.integer i)) (.number (.integer i.toInt))
  | finite {x : Float} : x.isFinite = true → Drawn h met (.number (.float x)) (.number (.float x))
  | infinite {x : Float} : x.isFinite = false → Drawn h met (.number (.float x)) .null
  | text (s : String) : Drawn h met (.text s) (.text s)
  | again {c : Container} : c ∈ met → Drawn h met (.container c) (.text circularMarker)
  | object {id : Nat} {members : List (String × Json)} :
      .object id ∉ met → members.map Prod.fst = (h.shownFields id).map Prod.fst →
      Drawn h met (.container (.object id)) (.object members)
  | array {id : Nat} {items : List Json} :
      .array id ∉ met → items.length = (h.items id).length →
      Drawn h met (.container (.array id)) (.array items)

theorem drawn_toJson {h : Heap} {met above : List Container}
    (hMet : ∀ c, c ∈ above ↔ c ∈ met) (w : Value) : Drawn h met w (h.toJson above w) := by
  cases w with
  | container c =>
    by_cases hOpen : c ∈ above
    · rw [Heap.toJson_above hOpen]
      exact .again ((hMet c).1 hOpen)
    · have hNew : c ∉ met := fun hMem => hOpen ((hMet c).2 hMem)
      cases c with
      | object id =>
        rw [Heap.toJson_object hOpen]
        refine .object hNew ?_
        rw [List.map_map]
        rfl
      | array id =>
        rw [Heap.toJson_array hOpen]
        exact .array hNew (List.length_map _)
  | number n =>
    rw [Heap.toJson]
    cases n with
    | integer i => exact .integer i
    | float x =>
      rw [Number.toJson]
      by_cases hFinite : x.isFinite = true
      · rw [if_pos hFinite]
        exact .finite hFinite
      · rw [if_neg hFinite]
        exact .infinite (Bool.eq_false_iff.2 hFinite)
  | absent =>
    rw [Heap.toJson]
    exact .absent
  | null =>
    rw [Heap.toJson]
    exact .null
  | bool b =>
    rw [Heap.toJson]
    exact .bool b
  | text s =>
    rw [Heap.toJson]
    exact .text s

/-- A route over different containers is not longer than there are containers. -/
theorem Heap.Route.length_le {h : Heap} {v w : Value} {edges : List Edge}
    (hRoute : h.Route v edges w) (hNodup : (edges.map Edge.owner).Nodup) :
    edges.length ≤ h.containers.length := by
  have hSubset : edges.map Edge.owner ⊆ h.containers := by
    intro c hc
    obtain ⟨e, he, rfl⟩ := List.mem_map.1 hc
    have hEntry := hRoute.entry_of_mem e he
    -- what has an entry is in the heap
    refine Decidable.byContradiction fun hn => ?_
    rw [Heap.entries_eq_nil hn] at hEntry
    simp at hEntry
  have hLength := (hNodup.subperm hSubset).length_le
  rwa [List.length_map] at hLength

/-- The tree of a value is its unfolding, cut at cycles. It ends on every branch, after no more
edges than the graph has containers, and each of its nodes is that of a route. A route has a node
exactly if the containers that it goes through are different and no field that it uses is absent.
There stands the value at its end: a marker for a container that the route has gone through,
another container with all its children, a scalar as itself. -/
theorem toJson_unfolds (h : Heap) (v : Value) :
    (∀ keys, ((v.toJson h).at? keys).isSome = true →
      keys.length ≤ h.containers.length ∧
        ∃ edges w, h.Route v edges w ∧ edges.map Edge.key = keys) ∧
    ∀ edges w, h.Route v edges w →
      (((v.toJson h).at? (edges.map Edge.key)).isSome = true ↔
        (edges.map Edge.owner).Nodup ∧ ∀ e ∈ edges, e.Shown) ∧
      ∀ t, (v.toJson h).at? (edges.map Edge.key) = some t →
        Drawn h (edges.map Edge.owner) w t := by
  constructor
  · intro keys hSome
    obtain ⟨t, hAt⟩ := Option.isSome_iff_exists.1 hSome
    obtain ⟨edges, w, hRoute, rfl, hFresh, -, -⟩ := at?_toJson_iff.1 hAt
    refine ⟨?_, edges, w, hRoute, rfl⟩
    rw [List.length_map]
    exact hRoute.length_le hFresh.nodup
  · intro edges w hRoute
    -- the node of the keys is that of this route, for there is no other with these keys
    have hNode : ∀ t, (v.toJson h).at? (edges.map Edge.key) = some t →
        ((edges.map Edge.owner).Nodup ∧ ∀ e ∈ edges, e.Shown) ∧
          t = h.toJson ((edges.map Edge.owner).reverse ++ []) w := by
      intro t hAt
      obtain ⟨edges', w', hRoute', hKeys, hFresh, hShown, ht⟩ := at?_toJson_iff.1 hAt
      obtain ⟨rfl, rfl⟩ := hRoute'.unique hRoute hKeys
      exact ⟨⟨hFresh.nodup, hShown⟩, ht⟩
    refine ⟨⟨fun hSome => ?_, fun ⟨hNodup, hShown⟩ => ?_⟩, fun t hAt => ?_⟩
    · obtain ⟨t, hAt⟩ := Option.isSome_iff_exists.1 hSome
      exact (hNode t hAt).1
    · have hFresh : Fresh [] edges := ⟨hNodup, by simp⟩
      exact Option.isSome_iff_exists.2
        ⟨_, at?_toJson_iff.2 ⟨edges, w, hRoute, rfl, hFresh, hShown, rfl⟩⟩
    · rw [(hNode t hAt).2]
      exact drawn_toJson (by simp) w

/-- An object that holds itself, an absent field, and an array with another object in it twice. -/
def tangleHeap : Heap where
  objects := #[
    .ofList [("self", .container (.object 0)), ("gone", .absent), ("list", .container (.array 0))],
    .ofList [("id", .null)]]
  arrays := #[[.container (.object 1), .container (.object 1), .absent]]

theorem toJson_unfolds_tangle :
    (Value.container (.object 0)).toJson tangleHeap =
      .object [("self", .text circularMarker),
        ("list", .array [.object [("id", .null)], .object [("id", .null)], .null])] ∧
    tangleHeap.Route (.container (.object 0))
      [⟨.object 0, .field "list", .container (.array 0)⟩,
        ⟨.array 0, .index 1, .container (.object 1)⟩] (.container (.object 1)) ∧
    (((Value.container (.object 0)).toJson tangleHeap).at? [.field "list", .index 1]).isSome =
      true ∧
    [Key.field "list", .index 1].length ≤ tangleHeap.containers.length ∧
    ∃ t, ((Value.container (.object 0)).toJson tangleHeap).at? [.field "list", .index 1] = some t ∧
      Drawn tangleHeap [.object 0, .array 0] (.container (.object 1)) t := by
  have hTree : (Value.container (.object 0)).toJson tangleHeap =
      .object [("self", .text circularMarker),
        ("list", .array [.object [("id", .null)], .object [("id", .null)], .null])] := by cbv
  have hRoute : tangleHeap.Route (.container (.object 0))
      [⟨.object 0, .field "list", .container (.array 0)⟩,
        ⟨.array 0, .index 1, .container (.object 1)⟩] (.container (.object 1)) :=
    .step (List.mem_of_getElem? (i := 2) rfl) (.step (List.mem_of_getElem? (i := 1) rfl) (.here _))
  obtain ⟨hKeys, hRoutes⟩ := toJson_unfolds tangleHeap (.container (.object 0))
  obtain ⟨hNode, hDrawn⟩ := hRoutes _ _ hRoute
  have hSome := hNode.2 ⟨by decide, by simp [Edge.Shown, Value.isAbsent]⟩
  obtain ⟨t, hAt⟩ := Option.isSome_iff_exists.1 hSome
  exact ⟨hTree, hRoute, hSome, (hKeys _ hSome).1, t, hAt, hDrawn t hAt⟩

end DocGraph
