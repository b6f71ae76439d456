import DocGraph.Proofs.Decoding
import DocGraph.Proofs.Resolution

/-!
# DocGraph: the two searches agree on what was decoded

The search for a name goes level by level and the search for a value goes deep first, so in a graph
they may reach one container on different routes and report different paths for one field. What was
decoded is a tree. There is one route to each container, both searches take it, and so a field found
by its name is reported under the same path when its value is searched for.

The two also have different ways to name a child: one looks a text up, the other lists the keys. A
child that is listed under a key is found by the text of the key, so where the search for a name
finds nothing, the other search compares no child whose key reads like the name.

* `keys_of_compared`: in a tree a child is compared under the keys of the one route to its owner.
* `mem_paths_of_match`: the path of a field found by its name is reported for its value.
* `text_ne_of_compared`: no key that is compared reads like a name that was not found.
* `searches_agree`: the two together.
-/

namespace DocGraph.Search

variable {h : Heap} {v : Value} {name : String}

theorem isNaN_eq_false (hNumber : ∀ x, v = .number (.float x) → x.isNaN = false) :
    v.isNaN = false := by
  unfold Value.isNaN
  split
  · exact hNumber _ rfl
  · rfl

/-- Where all that is met branches, a child is compared under the keys of the one route to its
owner. -/
theorem keys_of_compared (hv : ∀ c, h.Meets v c → h.Branches c) {e : Candidate}
    (he : e ∈ compared h v) {edges : List Edge} (hRoute : h.Route v edges (.container e.owner)) :
    e.keys = edges.map Edge.key := by
  obtain ⟨-, edges', hRoute', hKeys⟩ := exists_route_of_compared he
  have hSame : edges = edges' := Heap.route_unique hv hRoute hRoute'
  rw [hSame, hKeys]

/-- Where all that is met branches, the path of a field found by its name is among those reported
for its value. -/
theorem mem_paths_of_match (hv : ∀ c, h.Meets v c → h.Branches c) {m : KeyMatch}
    (hMatch : findKeyMatch h v name = .ok (some m))
    (hNumber : ∀ x, m.value = .number (.float x) → x.isNaN = false) :
    m.path ∈ findByValue h v m.value .strict := by
  cases hRoot : v.container? with
  | none =>
    -- below a scalar nothing is found
    have hName := isBlankText_of_findKeyMatch hMatch
    have hNone : findKeyMatch h v name = .ok none :=
      (findKeyMatch_none_iff hName).2 fun c hMeets =>
        absurd hMeets (Heap.not_meets_scalar hRoot c)
    rw [hNone] at hMatch
    cases hMatch
  | some root =>
    obtain rfl := Value.container?_eq_some_iff.1 hRoot
    obtain ⟨w, keys, owner, key, hWalk, hEntry, hPath, -⟩ := exists_walk_of_match hMatch
    obtain ⟨edges, hRoute, hKeys⟩ := Heap.exists_walk_iff_route.1 ⟨w, hWalk⟩
    obtain ⟨keys', hMem⟩ := exists_compared_of_meets ⟨edges, hRoute⟩ hEntry
    have hSame : keys' = keys := (keys_of_compared hv hMem hRoute).trans hKeys
    subst hSame
    have hSelf : (m.value == m.value) = true := by
      rw [Value.beq_self, isNaN_eq_false hNumber]
      rfl
    have hAccepted := judge_strict_iff (h := h).2 hSelf
    exact mem_findByValue_iff.2 ⟨_, hMem, hAccepted, hPath.symm⟩

/-- Where no container met owns a name, no key that is compared reads like it, as long as positions
in arrays fit a machine word. -/
theorem text_ne_of_compared (hNone : ∀ c, h.Meets v c → h.ownField c name = none)
    (hLengths : ∀ id, h.Meets v (.array id) → (h.items id).length < Index.bound) {e : Candidate}
    (he : e ∈ compared h v) : e.key.text ≠ name := by
  obtain ⟨hEntry, edges, hRoute, -⟩ := exists_route_of_compared he
  have hMeets : h.Meets v e.owner := ⟨edges, hRoute⟩
  have hSize : e.owner.isArray = true → h.size e.owner < Index.bound := by
    intro hArray
    cases hOwner : e.owner with
    | object id =>
      rw [hOwner] at hArray
      contradiction
    | array id =>
      rw [hOwner] at hMeets
      exact hLengths id hMeets
  rintro rfl
  have hOwn := Heap.ownField_of_mem_entries hSize hEntry
  rw [hNone e.owner hMeets] at hOwn
  contradiction

/-- On what was decoded the two searches agree. A field found by its name is found by its value,
under the same path, unless the value is NaN. Where no field of a name is found, the paths reported
for any value and by any comparator are those of children none of which has a key that reads like
the name, as long as positions in arrays fit a machine word; nor has the child of a fault. -/
theorem searches_agree (t : Decoded) (h : Heap) {v : Value} {k : Heap} (hLoad : t.load h = (v, k))
    (name : String) :
    (∀ m, findKeyMatch k v name = .ok (some m) →
      (∀ x, m.value = .number (.float x) → x.isNaN = false) →
        m.path ∈ findByValue k v m.value .strict) ∧
    (findKeyMatch k v name = .ok none →
      (∀ id, k.Meets v (.array id) → (k.items id).length < Index.bound) →
        (∀ e ∈ compared k v, e.key.text ≠ name) ∧
          ∀ target comparator,
            (findValueReport k v target comparator).paths =
              ((compared k v).filter fun e =>
                comparator.judge k e.value target = .accepted).map Candidate.path ∧
            (findValueReport k v target comparator).faults =
              (compared k v).filterMap fun e =>
                (comparator.judge k e.value target).fault?.map (⟨e.path, ·⟩)) := by
  constructor
  · intro m hMatch hNumber
    exact mem_paths_of_match (Decoded.branches hLoad (.refl k)) hMatch hNumber
  · intro hMatch hLengths
    have hNone := (findKeyMatch_none_iff (isBlankText_of_findKeyMatch hMatch)).1 hMatch
    refine ⟨fun e he => text_ne_of_compared hNone hLengths he, fun target comparator => ?_⟩
    rw [findValueReport_eq_compared]
    exact ⟨rfl, rfl⟩

/-- A list in an object, with a field in it whose name reads like a position. -/
def positionTree : Json :=
  .object [("list", .array [.object [("1", .null)], .number (.integer 7)])]

def positionHeap : Heap where
  objects := #[.ofList [("1", .null)], .ofList [("list", .container (.array 0))]]
  arrays := #[[.container (.object 0), .number (.integer 7)]]

theorem load_positionTree :
    (Decoded.json positionTree).load .empty = (.container (.object 1), positionHeap) := by
  rfl

theorem searches_agree_position :
    (Decoded.json positionTree).load .empty = (.container (.object 1), positionHeap) ∧
    findKeyMatch positionHeap (.container (.object 1)) "1" =
      .ok (some ⟨"list[1]", 1, .number (.integer 7)⟩) ∧
    "list[1]" ∈ findByValue positionHeap (.container (.object 1)) (.number (.integer 7)) .strict ∧
    findKeyMatch positionHeap (.container (.object 1)) "2" = .ok none ∧
    ∀ e ∈ compared positionHeap (.container (.object 1)), e.key.text ≠ "2" := by
  have hFound : findKeyMatch positionHeap (.container (.object 1)) "1" =
      .ok (some ⟨"list[1]", 1, .number (.integer 7)⟩) := by cbv
  have hMissing : findKeyMatch positionHeap (.container (.object 1)) "2" = .ok none := by cbv
  have hLengths : ∀ id, (positionHeap.items id).length < Index.bound := by
    rintro (_ | id)
    · decide
    · simp [Heap.items, positionHeap, Index.bound]
  have hOne := (searches_agree (.json positionTree) .empty load_positionTree "1").1
  have hTwo := (searches_agree (.json positionTree) .empty load_positionTree "2").2
  exact ⟨load_positionTree, hFound, hOne _ hFound (by simp), hMissing,
    (hTwo hMissing fun id _ => hLengths id).1⟩

end DocGraph.Search
