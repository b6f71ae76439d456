import DocGraph.Proofs.Below
import DocGraph.Proofs.Resolution

/-!
# DocGraph: reported paths are unambiguous

A path is written without quotes, and one container may wait on the stack under many paths. Still,
where names of fields are plain, no two edges are reported under one path. The scanner cuts the path
of plain keys between the keys, so a path spells its keys, but for one thing: the first key is bare,
be it a name or a position. The root decides which of the two it is. Keys decide where a walk leads,
and each edge is compared under one walk only.

* `suffix_injective` / `eq_of_render_eq`: plain keys that are written alike are the same.
* `Walk.end_unique`: the keys decide where a walk leads.
* `PlainlyNamed.candidate_eq`: what is compared under one path is one candidate.
* `reported_paths_distinct`: so the paths of a report, those of its faults included, are different.
-/

namespace DocGraph

namespace Heap.Walk

variable {h : Heap} {c d e : Container} {w u : List Nat} {keys : List Key} {key : Key} {v : Value}

/-- The first key of a walk and of one more entry is that of an entry at the start. -/
theorem exists_first (hw : h.Walk c w keys d) (hEntry : (key, v) ∈ h.entries d) :
    ∃ first rest u, keys ++ [key] = first :: rest ∧ (first, u) ∈ h.entries c := by
  cases hw with
  | here => exact ⟨key, [], v, rfl, hEntry⟩
  | @step _ e _ _ _ first keys hFirst _ =>
    exact ⟨first, keys ++ [key], .container e, rfl, List.mem_of_getElem? hFirst⟩

/-- The keys decide where a walk leads. -/
theorem end_unique (hw : h.Walk c w keys d) (hu : h.Walk c u keys e) : d = e := by
  obtain ⟨edges, hRoute, hKeys⟩ := exists_walk_iff_route.1 ⟨w, hw⟩
  obtain ⟨edges', hRoute', hKeys'⟩ := exists_walk_iff_route.1 ⟨u, hu⟩
  have hEnd := (hRoute.unique hRoute' (hKeys.trans hKeys'.symm)).2
  exact Value.container.inj hEnd

end Heap.Walk

/-! ## Keys written alike -/

namespace Path

/-- Behind the first key the punctuation tells names from positions. -/
theorem suffix_injective : Function.Injective suffix := by
  intro key key' hSuffix
  cases key with
  | field name =>
    cases key' with
    | field name' => exact congrArg Key.field (String.toList_inj.1 (List.cons.inj hSuffix).2)
    | index position' => simp [suffix] at hSuffix
  | index position =>
    cases key' with
    | field name' => simp [suffix] at hSuffix
    | index position' =>
      have hDigits := List.append_cancel_right (List.cons.inj hSuffix).2
      exact congrArg Key.index (Nat.repr_injective (String.toList_inj.1 hDigits))

/-- Plain keys that are written alike are the same, if the text of the first key tells which key it
is. -/
theorem eq_of_render_eq {key key' : Key} {keys keys' : List Key}
    (hPlain : ∀ k ∈ key :: keys, Plain k.text.toList)
    (hPlain' : ∀ k ∈ key' :: keys', Plain k.text.toList)
    (hFirst : key.text = key'.text → key = key')
    (hRender : render (key :: keys) = render (key' :: keys')) : key :: keys = key' :: keys' := by
  have hSegments := segments_render hPlain
  rw [hRender, segments_render hPlain', List.cons.injEq, Segment.token.injEq] at hSegments
  obtain ⟨⟨hText, -⟩, hRest⟩ := hSegments
  obtain rfl := hFirst (String.toList_inj.1 hText.symm)
  -- the segments behind the first one are the suffixes of the keys
  have hSource : Function.Injective fun key : Key =>
      Segment.token (suffix key) key.text.toList := by
    intro k k' hToken
    exact suffix_injective (Segment.token.inj hToken).1
  rw [List.map_injective_iff.2 hSource hRest]

end Path

/-! ## Candidates and their paths -/

namespace Search

/-- The names of all fields below `root` are nonempty and hold no point or bracket. -/
def PlainlyNamed (h : Heap) (root : Container) : Prop :=
  ∀ id, h.Reaches root (.object id) → ∀ field ∈ (h.fields id).toList,
    field.1 ≠ "" ∧ ∀ c ∈ field.1.toList, c ≠ '.' ∧ c ≠ '[' ∧ c ≠ ']'

namespace PlainlyNamed

variable {h : Heap} {root : Container}

/-- All keys below the root are plain, for positions always are. -/
theorem plain_text (hNames : PlainlyNamed h root) {owner : Container} {key : Key} {v : Value}
    (hReach : h.Reaches root owner) (hEntry : (key, v) ∈ h.entries owner) :
    Path.Plain key.text.toList := by
  cases owner with
  | object id =>
    obtain ⟨name, rfl, hField⟩ := Heap.mem_entries_object_iff.1 hEntry
    exact (Path.plain_toList_iff name).2 (hNames id hReach _ hField)
  | array id =>
    obtain ⟨position, rfl, -⟩ := Heap.mem_entries_array_iff.1 hEntry
    exact Path.plain_toString position

/-- So are the keys of a walk from the root and of one more entry. -/
theorem plain_texts (hNames : PlainlyNamed h root) {w : List Nat} {keys : List Key}
    {owner : Container} {key : Key} {v : Value} (hWalk : h.Walk root w keys owner)
    (hEntry : (key, v) ∈ h.entries owner) :
    ∀ k ∈ keys ++ [key], Path.Plain k.text.toList := by
  intro k hk
  obtain ⟨owner, v, hReach, hMem⟩ := hWalk.exists_owner_concat hEntry hk
  exact hNames.plain_text hReach hMem

/-- What is compared under one path is one candidate. -/
theorem candidate_eq (hNames : PlainlyNamed h root) {c d : Candidate} (hc : c ∈ candidates h root)
    (hd : d ∈ candidates h root) (hPath : c.path = d.path) : c = d := by
  obtain ⟨hStop, hEntry⟩ := mem_candidates_iff.1 hc
  obtain ⟨hStop', hEntry'⟩ := mem_candidates_iff.1 hd
  obtain ⟨w, hWalk⟩ := genuine_tour_root _ hStop
  obtain ⟨w', hWalk'⟩ := genuine_tour_root _ hStop'
  have hPlain := hNames.plain_texts hWalk hEntry
  have hPlain' := hNames.plain_texts hWalk' hEntry'
  -- both paths begin with a key of the root
  have hKeys : c.keys ++ [c.key] = d.keys ++ [d.key] := by
    unfold Candidate.path at hPath
    obtain ⟨first, rest, u, hCons, hFirst⟩ := hWalk.exists_first hEntry
    obtain ⟨first', rest', u', hCons', hFirst'⟩ := hWalk'.exists_first hEntry'
    rw [hCons] at hPlain hPath ⊢
    rw [hCons'] at hPlain' hPath ⊢
    exact Path.eq_of_render_eq hPlain hPlain' (Heap.key_eq_of_text_eq hFirst hFirst') hPath
  -- so they are paths of one walk, and of one child of the container at its end
  obtain ⟨hFront, hLast⟩ := List.append_inj' hKeys rfl
  obtain ⟨keys, owner, key, value⟩ := c
  obtain ⟨keys', owner', key', value'⟩ := d
  obtain rfl : keys = keys' := hFront
  obtain rfl : key = key' := List.singleton_inj.1 hLast
  obtain rfl : owner = owner' := hWalk.end_unique hWalk'
  obtain rfl : value = value' := Heap.value_unique hEntry hEntry'
  rfl

end PlainlyNamed

/-- The candidates that a report names: those accepted, then those on which the comparator fails. -/
def named (judge : Value → Verdict) (list : List Candidate) : List Candidate :=
  (list.filter fun c => judge c.value = .accepted) ++ list.filter fun c => (judge c.value).isFault

theorem mem_of_mem_named {judge : Value → Verdict} {list : List Candidate} {c : Candidate}
    (hc : c ∈ named judge list) : c ∈ list := by
  rcases List.mem_append.1 hc with hc | hc <;> exact (List.mem_filter.1 hc).1

/-- No candidate is named twice, for none is both accepted and a fault. -/
theorem nodup_named {judge : Value → Verdict} {list : List Candidate} (hList : list.Nodup) :
    (named judge list).Nodup := by
  refine List.nodup_append.2 ⟨hList.filter _, hList.filter _, ?_⟩
  rintro c hc d hd rfl
  have hAccepted := of_decide_eq_true (List.mem_filter.1 hc).2
  have hFault := (List.mem_filter.1 hd).2
  rw [hAccepted] at hFault
  contradiction

theorem map_path_named (judge : Value → Verdict) (list : List Candidate) :
    (Report.ofCandidates judge list).paths ++
        (Report.ofCandidates judge list).faults.map Fault.path =
      (named judge list).map Candidate.path := by
  have hFaults : (Report.ofCandidates judge list).faults.map Fault.path =
      (list.filter fun c => (judge c.value).isFault).map Candidate.path := by
    unfold Report.ofCandidates
    induction list with
    | nil => rfl
    | cons c list ih =>
      -- a fault is reported for just the verdicts that are one
      cases hJudge : judge c.value with
      | accepted | rejected => simpa [hJudge, Verdict.fault?, Verdict.isFault] using ih
      | failed causes | panicked payload => simpa [hJudge, Verdict.fault?, Verdict.isFault] using ih
  rw [hFaults, named, List.map_append]
  rfl

/-- Where names of fields are plain, the paths of a report, those of its faults included, are
pairwise different: no two edges are compared under one path, let alone reported under one. -/
theorem reported_paths_distinct {h : Heap} {root : Container} (hNames : PlainlyNamed h root)
    (target : Value) (comparator : Comparator) :
    ((findValueReport h (.container root) target comparator).paths ++
        (findValueReport h (.container root) target comparator).faults.map Fault.path).Nodup ∧
      ∀ c ∈ candidates h root, ∀ d ∈ candidates h root, c.path = d.path → c.edge = d.edge := by
  constructor
  · rw [findValueReport_eq, map_path_named]
    -- each edge is compared once, so no candidate comes twice
    have hCandidates : (candidates h root).Nodup := (nodup_edges h root).of_map
    refine List.Nodup.map_on ?_ (nodup_named hCandidates)
    intro c hc d hd hPath
    exact hNames.candidate_eq (mem_of_mem_named hc) (mem_of_mem_named hd) hPath
  · intro c hc d hd hPath
    rw [hNames.candidate_eq hc hd hPath]

/-- An array with an object in it twice, whose names look like positions, and which holds both. -/
def numberedHeap : Heap where
  objects := #[.ofList [("0", .container (.array 0)), ("1", .container (.object 0)), ("2", .null)]]
  arrays := #[[.container (.object 0), .container (.object 0), .null]]

theorem plainlyNamed_numberedHeap : PlainlyNamed numberedHeap (.array 0) := by
  intro id _
  have hNames : ((numberedHeap.fields id).toList.all fun field =>
      field.1 != "" && !field.1.toList.any Path.isMeta) = true := by
    match id with
    | 0 => decide
    | id + 1 => simp [Heap.fields, numberedHeap, Fields.empty]
  intro field hField
  simpa [Path.isMeta, and_assoc] using List.all_eq_true.1 hNames field hField

theorem reported_paths_distinct_numbered :
    PlainlyNamed numberedHeap (.array 0) ∧
      findValueReport numberedHeap (.container (.array 0)) .absent nullOnly =
        ⟨["2", "1.2"], [⟨"1.0", "array"⟩]⟩ ∧
      ["2", "1.2", "1.0"].Nodup := by
  have hReport : findValueReport numberedHeap (.container (.array 0)) .absent nullOnly =
      ⟨["2", "1.2"], [⟨"1.0", "array"⟩]⟩ := by cbv
  have hNodup := (reported_paths_distinct plainlyNamed_numberedHeap .absent nullOnly).1
  rw [hReport] at hNodup
  exact ⟨plainlyNamed_numberedHeap, hReport, hNodup⟩

end Search

end DocGraph
