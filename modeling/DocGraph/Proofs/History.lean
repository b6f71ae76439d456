import DocGraph.Proofs.Decoding
import DocGraph.Proofs.Position
import DocGraph.Proofs.Resolution

/-!
# DocGraph: graphs under change

A graph comes into being by operations: containers are made, fields are bound, elements are added
and replaced, through handles that may be anywhere. Three things must agree on every container that
results: what is listed, what the text of a key finds, and where one step of a path leads. Texts
find children because a position is read only from the one text that it is written as, and because
no name is bound twice.

An operation edits the list of the children of one container and leaves all others alone, so what is
listed for a container is what its own history makes of it, whatever happens to the rest.

* `nodup_texts` / `consistent`: no two keys of a container have one text, and each text finds its key.
* `entries_perform`: one operation edits the children of its target.
* `entries_run`: a run edits the children of a container by the operations that address it.
* `run_consistent`: the ways to a child agree after any operations, and each changes one container.
-/

namespace DocGraph

namespace Heap

/-! ## Three ways to a child -/

section Access

variable {h : Heap} {c : Container} {name : String} {v : Value}

/-- The key by which a container knows a field has the text that finds it. -/
theorem text_keyIn (hOwn : h.ownField c name = some v) : (Search.keyIn c name).text = name := by
  cases c with
  | object id => rfl
  | array id =>
    obtain ⟨position, hParse, -⟩ := Option.bind_eq_some_iff.1 hOwn
    have hKey : Search.keyIn (.array id) name = .index position := by simp [Search.keyIn, hParse]
    rw [hKey]
    exact (Index.toString_of_parse? hParse).1

/-- No two children of a container have keys of one text. -/
theorem nodup_texts (h : Heap) (c : Container) :
    ((h.entries c).map fun e => e.1.text).Nodup := by
  refine List.Nodup.map_on ?_ (h.nodup_keys c).of_map
  intro e he f hf hText
  -- within one container the text is enough to know the key, and a key comes once
  have hKey := key_eq_of_text_eq he hf hText
  exact List.inj_on_of_nodup_map (h.nodup_keys c) he hf hKey

/-- The ways to the children of a container agree. -/
structure Consistent (h : Heap) (c : Container) : Prop where
  /-- A text finds the child whose key it is the text of. -/
  found : ∀ name v, h.ownField c name = some v ↔ ∃ key, (key, v) ∈ h.entries c ∧ key.text = name
  /-- There is no other child of this text. -/
  once : ∀ name v, h.ownField c name = some v →
    (h.entries c).countP (fun e => e.1.text = name) = 1
  /-- A step of a path leads to the child that its token finds. -/
  hop : ∀ name, Path.step h (.container c) name = h.ownField c name

/-- They do if the container is no array that is longer than a machine word can count. -/
theorem consistent (hSize : c.isArray = true → h.size c < Index.bound) : h.Consistent c where
  found name v := by
    constructor
    · intro hOwn
      exact ⟨_, Search.mem_entries_keyIn hOwn, text_keyIn hOwn⟩
    · rintro ⟨key, hEntry, rfl⟩
      exact ownField_of_mem_entries hSize hEntry
  once name v hOwn := by
    have hText : name ∈ (h.entries c).map fun e => e.1.text :=
      List.mem_map.2 ⟨_, Search.mem_entries_keyIn hOwn, text_keyIn hOwn⟩
    have hCount := List.count_eq_one_of_mem (h.nodup_texts c) hText
    rw [List.count, List.countP_map] at hCount
    exact hCount
  hop name := Path.step_eq h (.container c) name

end Access

/-! ## Operations -/

/-- What can be done to a graph: a container is made, or changed through a handle. -/
inductive Operation where
  | newObject (pairs : List (String × Value))
  | newArray (items : List Value)
  | insert (id : Nat) (name : String) (value : Value)
  | push (id : Nat) (value : Value)
  | set (id position : Nat) (value : Value)

namespace Operation

/-- The graph afterwards; replacing an element that is not there changes nothing. -/
def perform (h : Heap) : Operation → Heap
  | newObject pairs => (h.newObject (.ofList pairs)).2
  | newArray items => (h.newArray items).2
  | insert id name value => h.insert id name value
  | push id value => h.push id value
  | set id position value => (h.set? id position value).getD h

/-- The container that is changed, if none is made. -/
def target? : Operation → Option Container
  | newObject _ => none
  | newArray _ => none
  | insert id _ _ => some (.object id)
  | push id _ => some (.array id)
  | set id _ _ => some (.array id)

/-- The child of a key replaced, in place. -/
def rebind (key : Key) (value : Value) (entries : List (Key × Value)) : List (Key × Value) :=
  entries.map fun e => if e.1 = key then (key, value) else e

/-- A child of a key that is there is replaced, any other comes last. -/
def bind (key : Key) (value : Value) (entries : List (Key × Value)) : List (Key × Value) :=
  if key ∈ entries.map Prod.fst then rebind key value entries else entries ++ [(key, value)]

/-- What becomes of the children of the container that is changed: a name is bound, an element comes
last, or one is replaced at its position, if it is there. -/
def edit (entries : List (Key × Value)) : Operation → List (Key × Value)
  | newObject _ => entries
  | newArray _ => entries
  | insert _ name value => bind (.field name) value entries
  | push _ value => entries ++ [(.index entries.length, value)]
  | set _ position value => rebind (.index position) value entries

end Operation

/-- The graph after some operations, one after the other. -/
def run (h : Heap) (ops : List Operation) : Heap :=
  ops.foldl Operation.perform h

/-- What becomes of the children of a container by the operations that address it. -/
def replay (c : Container) (ops : List Operation) (entries : List (Key × Value)) :
    List (Key × Value) :=
  (ops.filter fun op => op.target? = some c).foldl Operation.edit entries

/-! ## What one operation does -/

/-- Of different names, one at most is replaced. -/
theorem map_replace {name : String} {value : Value} {l : List (String × Value)}
    (hl : (l.map Prod.fst).Nodup) :
    (Fields.replace name value l).map (fun (name, v) => (Key.field name, v)) =
      Operation.rebind (.field name) value (l.map fun (name, v) => (Key.field name, v)) := by
  induction l with
  | nil => rfl
  | cons p l ih =>
    obtain ⟨n, v⟩ := p
    rw [List.map_cons, List.nodup_cons] at hl
    have hTail := ih hl.2
    unfold Operation.rebind at hTail ⊢
    rw [Fields.replace, List.map_cons, List.map_cons]
    by_cases hName : n = name
    -- the name is not found again further behind
    · subst hName
      have hAway : ∀ e ∈ l, e.1 ≠ n := fun e he hSame => hl.1 (List.mem_map.2 ⟨e, he, hSame⟩)
      rw [if_pos rfl, if_pos rfl, List.map_cons, List.map_map]
      refine congrArg _ (List.map_congr_left fun e he => ?_)
      rw [Function.comp_apply, if_neg fun hKey => hAway e he (Key.field.inj hKey)]
    · rw [if_neg hName, if_neg fun hKey => hName (Key.field.inj hKey), List.map_cons, hTail]

/-- The element at a position is the child of this position. -/
theorem map_zipIdx_set (l : List Value) (position : Nat) (value : Value) :
    (l.set position value).zipIdx.map (fun (v, position) => (Key.index position, v)) =
      Operation.rebind (.index position) value
        (l.zipIdx.map fun (v, position) => (Key.index position, v)) := by
  unfold Operation.rebind
  refine List.ext_getElem? fun n => ?_
  rw [List.getElem?_map, List.getElem?_map, List.getElem?_map, List.getElem?_zipIdx,
    List.getElem?_zipIdx, List.getElem?_set]
  by_cases hn : position = n
  · subst hn
    by_cases hLength : position < l.length
    · simp [hLength]
    · simp [hLength]
  · have hKey : Key.index n ≠ .index position := fun hSame => hn (Key.index.inj hSame).symm
    cases hGet : l[n]? with
    | none => simp [hn]
    | some v => simp [hn, hKey]

section Step

variable {h : Heap} {c d : Container} {op : Operation}

theorem getD_modify {α : Type} {store : Array α} {id : Nat} (hid : id < store.size) (f : α → α)
    (default : α) : (store.modify id f)[id]?.getD default = f (store[id]?.getD default) := by
  rw [Array.getElem?_modify, if_pos rfl, Array.getElem?_eq_getElem hid]
  rfl

theorem entries_insert {id : Nat} (hid : .object id ∈ h.containers) (name : String) (value : Value) :
    (h.insert id name value).entries (.object id) =
      Operation.bind (.field name) value (h.entries (.object id)) := by
  have hFields : (h.insert id name value).fields id = (h.fields id).insert name value :=
    getD_modify (object_mem_containers.1 hid) _ _
  have hBound : Key.field name ∈ (h.entries (.object id)).map Prod.fst ↔
      name ∈ (h.fields id).toList.map Prod.fst := by
    rw [keys_object, List.mem_map_of_injective fun _ _ => Key.field.inj]
  unfold Operation.bind
  -- a name that is bound keeps its place
  by_cases hName : name ∈ (h.fields id).toList.map Prod.fst
  · rw [if_pos (hBound.2 hName), entries, hFields, Fields.toList_insert_of_mem hName]
    exact map_replace (h.fields id).nodup
  · rw [if_neg fun hKey => hName (hBound.1 hKey), entries, hFields,
      Fields.toList_insert_of_not_mem hName, List.map_append]
    rfl

theorem entries_push {id : Nat} (hid : .array id ∈ h.containers) (value : Value) :
    (h.push id value).entries (.array id) =
      h.entries (.array id) ++ [(.index (h.entries (.array id)).length, value)] := by
  have hItems : (h.push id value).items id = h.items id ++ [value] :=
    getD_modify (array_mem_containers.1 hid) _ _
  rw [entries, hItems, List.zipIdx_append, List.map_append, entries, List.length_map,
    List.length_zipIdx, Nat.zero_add]
  rfl

theorem set?_eq_none_iff {id position : Nat} (value : Value) :
    h.set? id position value = none ↔ (h.items id).length ≤ position := by
  unfold set?
  split
  · simp only [reduceCtorEq, false_iff]
    omega
  · simp only [true_iff]
    omega

theorem entries_set {id : Nat} (hid : .array id ∈ h.containers) (position : Nat) (value : Value) :
    ((h.set? id position value).getD h).entries (.array id) =
      Operation.rebind (.index position) value (h.entries (.array id)) := by
  have hItems : ((h.set? id position value).getD h).items id = (h.items id).set position value := by
    unfold set?
    split
    · exact getD_modify (array_mem_containers.1 hid) _ _
    -- nothing is there to be replaced
    · rw [Option.getD_none, List.set_eq_of_length_le (by omega)]
  rw [entries, hItems]
  exact map_zipIdx_set _ _ _

/-- Changing one object makes no container and leaves all others as they are. -/
theorem modify_object (h : Heap) (id : Nat) (f : Fields Value → Fields Value) :
    containers { h with objects := h.objects.modify id f } = h.containers ∧
      ∀ c, c ≠ .object id → entries { h with objects := h.objects.modify id f } c = h.entries c := by
  constructor
  · unfold containers
    rw [Array.size_modify]
  · intro c hc
    cases c with
    | object other =>
      have hOther : id ≠ other := fun hSame => hc (congrArg Container.object hSame.symm)
      have hFields : fields { h with objects := h.objects.modify id f } other = h.fields other := by
        show (h.objects.modify id f)[other]?.getD .empty = _
        rw [Array.getElem?_modify, if_neg hOther]
        rfl
      rw [entries, hFields, entries]
    | array other => rfl

/-- The same of an array. -/
theorem modify_array (h : Heap) (id : Nat) (f : List Value → List Value) :
    containers { h with arrays := h.arrays.modify id f } = h.containers ∧
      ∀ c, c ≠ .array id → entries { h with arrays := h.arrays.modify id f } c = h.entries c := by
  constructor
  · unfold containers
    rw [Array.size_modify]
  · intro c hc
    cases c with
    | object other => rfl
    | array other =>
      have hOther : id ≠ other := fun hSame => hc (congrArg Container.array hSame.symm)
      have hItems : items { h with arrays := h.arrays.modify id f } other = h.items other := by
        show (h.arrays.modify id f)[other]?.getD [] = _
        rw [Array.getElem?_modify, if_neg hOther]
        rfl
      rw [entries, hItems, entries]

/-- An operation on a container makes no other one and leaves all others as they are. -/
theorem perform_of_target? (hTarget : op.target? = some d) :
    (op.perform h).containers = h.containers ∧
      ∀ c, c ≠ d → (op.perform h).entries c = h.entries c := by
  cases op with
  | newObject | newArray => contradiction
  | insert id name value =>
    obtain rfl := Option.some.inj hTarget
    exact modify_object h id _
  | push id value =>
    obtain rfl := Option.some.inj hTarget
    exact modify_array h id _
  | set id position value =>
    obtain rfl := Option.some.inj hTarget
    rw [Operation.perform]
    unfold set?
    split
    · exact modify_array h id _
    · exact ⟨rfl, fun _ _ => rfl⟩

theorem mem_containers_perform (op : Operation) (hc : c ∈ h.containers) :
    c ∈ (op.perform h).containers := by
  cases op with
  | newObject pairs => exact (extends_newObject h _).mem hc
  | newArray items => exact (extends_newArray h _).mem hc
  | insert | push | set =>
    rw [(perform_of_target? rfl).1]
    exact hc

/-- An operation edits the children of the container that it addresses, and those of no other. -/
theorem entries_perform (hc : c ∈ h.containers) :
    (op.perform h).entries c =
      if op.target? = some c then op.edit (h.entries c) else h.entries c := by
  split
  · rename_i hTarget
    cases op with
    | newObject | newArray => contradiction
    | insert id name value =>
      obtain rfl := Option.some.inj hTarget
      exact entries_insert hc name value
    | push id value =>
      obtain rfl := Option.some.inj hTarget
      exact entries_push hc value
    | set id position value =>
      obtain rfl := Option.some.inj hTarget
      exact entries_set hc position value
  · rename_i hTarget
    cases hOther : op.target? with
    -- another container is changed, or a new one is made behind all others
    | some d =>
      have hDiffer : c ≠ d := fun hSame => hTarget (hSame ▸ hOther)
      exact (perform_of_target? hOther).2 c hDiffer
    | none =>
      cases op with
      | newObject pairs => exact (extends_newObject h _).entries_eq hc
      | newArray items => exact (extends_newArray h _).entries_eq hc
      | insert | push | set => contradiction

end Step

/-! ## What a run does -/

/-- The children of a container are what the operations that address it make of them, one after the
other, whatever is done to other containers in between. -/
theorem entries_run {h : Heap} {c : Container} (hc : c ∈ h.containers) (ops : List Operation) :
    (h.run ops).entries c = replay c ops (h.entries c) := by
  induction ops generalizing h with
  | nil => rfl
  | cons op ops ih =>
    have hRest := ih (mem_containers_perform op hc)
    unfold run replay at hRest ⊢
    rw [List.foldl_cons, hRest, entries_perform hc]
    -- an operation on another container is left out, and has left the children as they were
    by_cases hTarget : op.target? = some c
    · rw [if_pos hTarget, List.filter_cons_of_pos (by simpa using hTarget), List.foldl_cons]
    · rw [if_neg hTarget, List.filter_cons_of_neg (by simpa using hTarget)]

/-- After any operations on any graph, through whatever handles, the ways to the children of a
container agree: the text of a key finds its child and no other text does, no two keys have one text,
and a step of a path leads where its token is found. The children of a container are what its own
operations have made of them. The next operation on a container, if it is one, changes this container
only, and replacing an element that is not there changes nothing. -/
theorem run_consistent (h : Heap) (ops : List Operation) :
    (∀ c, (c.isArray = true → (h.run ops).size c < Index.bound) → (h.run ops).Consistent c) ∧
      (∀ c ∈ h.containers, (h.run ops).entries c = replay c ops (h.entries c)) ∧
      (∀ (op : Operation) (d : Container), op.target? = some d →
        (op.perform (h.run ops)).containers = (h.run ops).containers ∧
          ∀ c, c ≠ d → (op.perform (h.run ops)).entries c = (h.run ops).entries c) ∧
      ∀ id position value, ((h.run ops).items id).length ≤ position →
        (h.run ops).set? id position value = none ∧
          (Operation.set id position value).perform (h.run ops) = h.run ops := by
  refine ⟨fun c hSize => consistent hSize, fun c hc => entries_run hc ops,
    fun op d hTarget => perform_of_target? hTarget, fun id position value hLength => ?_⟩
  have hNone := (set?_eq_none_iff value).2 hLength
  refine ⟨hNone, ?_⟩
  rw [Operation.perform, hNone, Option.getD_none]

/-- An array with itself in it for a time, and an object that binds one name twice and one much like
it; the last operation finds no element to replace. -/
def aliasedOps : List Operation :=
  [.newArray [.null], .push 0 (.container (.array 0)),
    .newObject [("1", .null), ("1", .container (.array 0))], .insert 0 "01" .null,
    .set 0 1 (.bool true), .set 0 2 .null]

theorem run_consistent_aliased :
    (empty.run aliasedOps).entries (.object 0) =
        [(.field "1", .container (.array 0)), (.field "01", .null)] ∧
      (empty.run aliasedOps).entries (.array 0) = [(.index 0, .null), (.index 1, .bool true)] ∧
      (empty.run aliasedOps).Consistent (.object 0) ∧
      (empty.run aliasedOps).Consistent (.array 0) := by
  obtain ⟨hConsistent, -, -, -⟩ := run_consistent empty aliasedOps
  refine ⟨rfl, rfl, hConsistent _ (fun hArray => by contradiction), hConsistent _ fun _ => ?_⟩
  have hSize : (empty.run aliasedOps).size (.array 0) = 2 := rfl
  rw [hSize]
  decide

end Heap

end DocGraph
