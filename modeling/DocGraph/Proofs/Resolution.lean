import DocGraph.Path.Resolve
import DocGraph.Proofs.LevelOrder
import DocGraph.Proofs.PlainKey
import DocGraph.Proofs.Tour
import Mathlib

/-!
# DocGraph: what a search reports can be fetched

A search reports where it found something by a path, and following a path is how a reader gets
there. Four things have to fit for this: the search must report the path of a walk, the path must
read back as the keys of the walk, each key must name its child by its text alone, and the walk may
lead over fields and positions, round a cycle and through what is shared. They fit wherever fields
have plain names and positions fit a machine word.

* `evaluate_walk`: the keys of a walk, and of one more entry, lead to the child of that entry.
* `Addressable.readable`: such keys read back.
* `exists_walk_of_match`: what the search for a name reports is the end of a walk.
* `reported_paths_resolve`: every path and every fault that a search reports leads to the value it
  is reported for.
-/

namespace DocGraph

/-- Two walks, one behind the other. -/
theorem Heap.Reaches.trans {h : Heap} {c d e : Container} (hd : h.Reaches c d)
    (he : h.Reaches d e) : h.Reaches c e := by
  obtain ⟨w, keys, hw⟩ := hd
  obtain ⟨u, keys', hu⟩ := he
  exact ⟨w ++ u, keys ++ keys', hw.append hu⟩

/-- The keys of one container are all names or all positions, so their texts tell them apart. -/
theorem Heap.key_eq_of_text_eq {h : Heap} {c : Container} {key key' : Key} {v w : Value}
    (hv : (key, v) ∈ h.entries c) (hw : (key', w) ∈ h.entries c) (hText : key.text = key'.text) :
    key = key' := by
  cases c with
  | object id =>
    obtain ⟨name, rfl, -⟩ := Heap.mem_entries_object_iff.1 hv
    obtain ⟨name', rfl, -⟩ := Heap.mem_entries_object_iff.1 hw
    exact congrArg Key.field hText
  | array id =>
    obtain ⟨position, rfl, -⟩ := Heap.mem_entries_array_iff.1 hv
    obtain ⟨position', rfl, -⟩ := Heap.mem_entries_array_iff.1 hw
    exact congrArg Key.index (Nat.repr_injective hText)

namespace Heap.Walk

variable {h : Heap} {c d : Container} {w : List Nat} {keys : List Key}

theorem length_keys (hw : h.Walk c w keys d) : keys.length = w.length := by
  induction hw with
  | here => rfl
  | step _ _ ih => rw [List.length_cons, List.length_cons, ih]

/-- Each key of a walk is that of an entry of a container on the way. -/
theorem exists_owner (hw : h.Walk c w keys d) {key : Key} (hKey : key ∈ keys) :
    ∃ owner v, h.Reaches c owner ∧ (key, v) ∈ h.entries owner := by
  induction hw with
  | here => simp at hKey
  | @step c d e n w first keys hEntry hRest ih =>
    have hFirst := List.mem_of_getElem? hEntry
    rcases List.mem_cons.1 hKey with rfl | hKey
    · exact ⟨c, .container d, h.reaches_self c, hFirst⟩
    · obtain ⟨owner, v, hReach, hMem⟩ := ih hKey
      exact ⟨owner, v, ((h.reaches_self c).child hFirst).trans hReach, hMem⟩

/-- The same of the keys of a walk and of one more entry. -/
theorem exists_owner_concat (hw : h.Walk c w keys d) {key key' : Key} {v : Value}
    (hEntry : (key, v) ∈ h.entries d) (hKey : key' ∈ keys ++ [key]) :
    ∃ owner v, h.Reaches c owner ∧ (key', v) ∈ h.entries owner := by
  rcases List.mem_append.1 hKey with hKey | hKey
  · exact hw.exists_owner hKey
  · rw [← List.mem_singleton.1 hKey] at hEntry
    exact ⟨d, v, ⟨w, keys, hw⟩, hEntry⟩

end Heap.Walk

end DocGraph

namespace DocGraph.Search

open DocGraph.Path (evaluate parse)

/-- A graph in which every place below `root` can be named by a path: names of fields are not
blank and hold no point or bracket, and the length of an array fits a machine word. -/
structure Addressable (h : Heap) (root : Container) : Prop where
  names : ∀ id, h.Reaches root (.object id) → ∀ field ∈ (h.fields id).toList,
    Text.isBlankText field.1 = false ∧ ∀ c ∈ field.1.toList, c ≠ '.' ∧ c ≠ '[' ∧ c ≠ ']'
  lengths : ∀ id, h.Reaches root (.array id) → (h.items id).length < Index.bound

/-- The path of a walk from `root` to the owner of an entry, and then of the entry, whose child is
`v`. -/
def LeadsTo (h : Heap) (root : Container) (path : String) (v : Value) : Prop :=
  ∃ w keys owner key, h.Walk root w keys owner ∧ (key, v) ∈ h.entries owner ∧
    path = Path.render (keys ++ [key])

namespace Addressable

variable {h : Heap} {root c owner : Container} {w : List Nat} {keys : List Key} {key : Key}
  {v : Value}

theorem size_lt (hAddr : Addressable h root) (hReach : h.Reaches root c) :
    c.isArray = true → h.size c < Index.bound := by
  cases c with
  | object id => simp [Container.isArray]
  | array id => exact fun _ => hAddr.lengths id hReach

/-- One hop: the text of a child's key leads to the child. -/
theorem step_entry (hAddr : Addressable h root) (hReach : h.Reaches root c)
    (hEntry : (key, v) ∈ h.entries c) : Path.step h (.container c) key.text = some v := by
  rw [Path.step_eq]
  exact Heap.ownField_of_mem_entries (hAddr.size_lt hReach) hEntry

/-- The keys of a walk lead along the walk. -/
theorem foldlM_walk (hAddr : Addressable h root) (hReach : h.Reaches root c)
    (hWalk : h.Walk c w keys owner) :
    (keys.map Key.text).foldlM (Path.step h) (.container c) = some (.container owner) := by
  induction hWalk with
  | here => rfl
  | step hEntry _ ih =>
    have hMem := List.mem_of_getElem? hEntry
    rw [List.map_cons, List.foldlM_cons, hAddr.step_entry hReach hMem]
    exact ih (hReach.child hMem)

theorem evaluate_walk (hAddr : Addressable h root) (hWalk : h.Walk root w keys owner)
    (hEntry : (key, v) ∈ h.entries owner) :
    evaluate h (.container root) ((keys ++ [key]).map Key.text) = some v := by
  have hReach : h.Reaches root owner := ⟨w, keys, hWalk⟩
  rw [evaluate, if_neg (by simp), List.map_append, List.foldlM_append,
    hAddr.foldlM_walk (h.reaches_self root) hWalk]
  simp [hAddr.step_entry hReach hEntry]

/-- The keys of a walk and of one more entry read back. -/
theorem readable (hAddr : Addressable h root) (hWalk : h.Walk root w keys owner)
    (hEntry : (key, v) ∈ h.entries owner) : Path.Readable (keys ++ [key]) := by
  -- a name among the keys is that of a field below the root
  have hName : ∀ name, .field name ∈ keys ++ [key] →
      Text.isBlankText name = false ∧ ∀ c ∈ name.toList, c ≠ '.' ∧ c ≠ '[' ∧ c ≠ ']' := by
    intro name hMem
    obtain ⟨owner, v, hReach, hMem⟩ := hWalk.exists_owner_concat hEntry hMem
    cases owner with
    | object id =>
      obtain ⟨_, hKey, hField⟩ := Heap.mem_entries_object_iff.1 hMem
      cases hKey
      exact hAddr.names id hReach _ hField
    | array id =>
      obtain ⟨_, hKey, -⟩ := Heap.mem_entries_array_iff.1 hMem
      cases hKey
  refine ⟨fun name hMem => ⟨?_, (hName name hMem).2⟩, fun name hSingle => ?_⟩
  · rintro rfl
    have hBlank := (hName "" hMem).1
    rw [Text.isBlankText_empty] at hBlank
    contradiction
  · exact (hName name (by rw [hSingle]; exact List.mem_singleton_self _)).1

/-- The path of a walk and of one more entry leads to the child of that entry, in one step for each
key. -/
theorem evaluate_render (hAddr : Addressable h root) (hWalk : h.Walk root w keys owner)
    (hEntry : (key, v) ∈ h.entries owner) :
    evaluate h (.container root) (parse (Path.render (keys ++ [key]))) = some v ∧
      (parse (Path.render (keys ++ [key]))).length = w.length + 1 := by
  have hParse : parse (Path.render (keys ++ [key])) = (keys ++ [key]).map Key.text := by
    rw [parse, (hAddr.readable hWalk hEntry).read_render]
  rw [hParse]
  refine ⟨hAddr.evaluate_walk hWalk hEntry, ?_⟩
  rw [List.length_map, List.length_append, hWalk.length_keys, List.length_singleton]

theorem evaluate_leadsTo (hAddr : Addressable h root) {path : String}
    (hPath : LeadsTo h root path v) : evaluate h (.container root) (parse path) = some v := by
  obtain ⟨w, keys, owner, key, hWalk, hEntry, rfl⟩ := hPath
  exact (hAddr.evaluate_render hWalk hEntry).1

end Addressable

/-! ## What the searches report -/

theorem leadsTo_candidate {h : Heap} {root : Container} {c : Candidate}
    (hc : c ∈ candidates h root) : LeadsTo h root c.path c.value := by
  obtain ⟨hStop, hEntry⟩ := mem_candidates_iff.1 hc
  obtain ⟨w, hWalk⟩ := genuine_tour_root _ hStop
  exact ⟨w, c.keys, c.owner, c.key, hWalk, hEntry, rfl⟩

/-- The key by which a container knows a field is that of an entry. -/
theorem mem_entries_keyIn {h : Heap} {c : Container} {name : String} {v : Value}
    (hOwn : h.ownField c name = some v) : (keyIn c name, v) ∈ h.entries c := by
  cases c with
  | object id =>
    exact Heap.mem_entries_object_iff.2 ⟨name, rfl, (h.fields id).mem_toList_iff_get?.2 hOwn⟩
  | array id =>
    obtain ⟨position, hParse, hItem⟩ := Option.bind_eq_some_iff.1 hOwn
    have hKey : keyIn (.array id) name = .index position := by simp [keyIn, hParse]
    rw [hKey]
    exact Heap.mem_entries_array_iff.2 ⟨position, rfl, hItem⟩

/-- A field found by its name is the entry of a container at the end of a walk. -/
theorem exists_walk_of_match {h : Heap} {root : Container} {name : String} {m : KeyMatch}
    (hMatch : findKeyMatch h (.container root) name = .ok (some m)) :
    ∃ w keys owner key, h.Walk root w keys owner ∧ (key, m.value) ∈ h.entries owner ∧
      m.path = Path.render (keys ++ [key]) ∧ m.depth = w.length := by
  have hFound : (searchKey h name [⟨root, none, 0⟩] .empty).found = some m := by
    cases hBlank : Text.isBlankText name with
    | true => simp [findKeyMatch, findKey, hBlank, Except.map] at hMatch
    | false => simpa [findKeyMatch, findKey, hBlank, Value.container?, Except.map] using hMatch
  by_cases hSome : ∃ w, OwnerWalk h root name w
  · obtain ⟨w, keys, owner, value, hFirst⟩ := exists_firstOwner hSome
    rw [searchKey_of_firstOwner hFirst [⟨root, none, 0⟩] _ _ rfl (Frontier.init h root w)] at hFound
    cases hFound
    exact ⟨w, keys, owner, keyIn owner name, hFirst.walk, mem_entries_keyIn hFirst.owns, rfl, rfl⟩
  · have hNone : ∀ w, ¬ OwnerWalk h root name w := fun w hw => hSome ⟨w, hw⟩
    rw [searchKey_of_ownerless hNone] at hFound
    · simp at hFound
    · intro p hp
      rw [List.mem_singleton.1 hp]
      exact h.reaches_self root

/-- Where every place can be named, what a search reports can be fetched by its path. A path
reported for a value leads to a value that the comparator accepts, a fault to the candidate on which
the comparator failed, and the path of a field found by its name leads to the value of that field,
in one step more than its depth. -/
theorem reported_paths_resolve {h : Heap} {root : Container} (hAddr : Addressable h root) :
    (∀ (target : Value) (comparator : Comparator),
      (∀ path ∈ (findValueReport h (.container root) target comparator).paths,
        ∃ v, evaluate h (.container root) (parse path) = some v ∧ LeadsTo h root path v ∧
          comparator.judge h v target = .accepted) ∧
      ∀ fault ∈ (findValueReport h (.container root) target comparator).faults,
        ∃ v, evaluate h (.container root) (parse fault.path) = some v ∧
          LeadsTo h root fault.path v ∧
          (comparator.judge h v target).fault? = some fault.message) ∧
    ∀ name m, findKeyMatch h (.container root) name = .ok (some m) →
      evaluate h (.container root) (parse m.path) = some m.value ∧
        (parse m.path).length = m.depth + 1 := by
  refine ⟨fun target comparator => ?_, fun name m hMatch => ?_⟩
  · rw [findValueReport_eq]
    constructor
    · intro path hPath
      obtain ⟨c, hc, rfl⟩ := List.mem_map.1 hPath
      obtain ⟨hc, hAccepted⟩ := List.mem_filter.1 hc
      have hLeads := leadsTo_candidate hc
      exact ⟨c.value, hAddr.evaluate_leadsTo hLeads, hLeads, of_decide_eq_true hAccepted⟩
    · intro fault hFault
      obtain ⟨c, hc, hReported⟩ := List.mem_filterMap.1 hFault
      obtain ⟨message, hMessage, rfl⟩ := Option.map_eq_some_iff.1 hReported
      have hLeads := leadsTo_candidate hc
      exact ⟨c.value, hAddr.evaluate_leadsTo hLeads, hLeads, hMessage⟩
  · obtain ⟨w, keys, owner, key, hWalk, hEntry, hPath, hDepth⟩ := exists_walk_of_match hMatch
    rw [hPath, hDepth]
    exact hAddr.evaluate_render hWalk hEntry

theorem addressable_loopHeap : Addressable loopHeap (.object 0) := by
  have hNames : ∀ id, ((loopHeap.fields id).toList.all fun field =>
      !Text.isBlankText field.1 && !field.1.toList.any Path.isMeta) = true := by
    rintro (_ | _ | id)
    · decide
    · decide
    · simp [Heap.fields, loopHeap, Fields.empty]
  have hLengths : ∀ id, (loopHeap.items id).length < Index.bound := by
    rintro (_ | id)
    · decide
    · simp [Heap.items, loopHeap, Index.bound]
  refine ⟨fun id _ field hField => ?_, fun id _ => hLengths id⟩
  simpa [Path.isMeta, and_assoc] using List.all_eq_true.1 (hNames id) field hField

/-- A comparator that accepts null and fails on arrays. -/
def nullOnly : Comparator :=
  .custom fun v _ =>
    match v with
    | .null => .accepted
    | .container (.array _) => .failed ["array"]
    | _ => .rejected

theorem reported_paths_resolve_loop :
    Addressable loopHeap (.object 0) ∧
      findValueReport loopHeap (.container (.object 0)) .absent nullOnly =
        ⟨["item.id"], [⟨"list", "array"⟩]⟩ ∧
      findKeyMatch loopHeap (.container (.object 0)) "id" = .ok (some ⟨"item.id", 1, .null⟩) ∧
      (∃ v, evaluate loopHeap (.container (.object 0)) (parse "item.id") = some v ∧
        LeadsTo loopHeap (.object 0) "item.id" v ∧
        nullOnly.judge loopHeap v .absent = .accepted) ∧
      (∃ v, evaluate loopHeap (.container (.object 0)) (parse "list") = some v ∧
        LeadsTo loopHeap (.object 0) "list" v ∧
        (nullOnly.judge loopHeap v .absent).fault? = some "array") ∧
      evaluate loopHeap (.container (.object 0)) (parse "item.id") = some .null ∧
      (parse "item.id").length = 1 + 1 := by
  have hReport : findValueReport loopHeap (.container (.object 0)) .absent nullOnly =
      ⟨["item.id"], [⟨"list", "array"⟩]⟩ := by cbv
  have hMatch : findKeyMatch loopHeap (.container (.object 0)) "id" =
      .ok (some ⟨"item.id", 1, .null⟩) := by cbv
  obtain ⟨hValue, hKey⟩ := reported_paths_resolve addressable_loopHeap
  obtain ⟨hPaths, hFaults⟩ := hValue .absent nullOnly
  rw [hReport] at hPaths hFaults
  have hItem := hPaths "item.id" (List.mem_singleton_self _)
  have hList := hFaults ⟨"list", "array"⟩ (List.mem_singleton_self _)
  have hId := hKey "id" ⟨"item.id", 1, .null⟩ hMatch
  exact ⟨addressable_loopHeap, hReport, hMatch, hItem, hList, hId⟩

end DocGraph.Search
