import DocGraph.Export
import DocGraph.Path.Resolve
import DocGraph.Proofs.LevelOrder
import DocGraph.Proofs.Tour

/-!
# DocGraph: names of containers do not matter

A container's identity is a number that the heap happens to give it. Every traversal keeps such
identities: those entered by a search, the pairs assumed equal by a comparison, those open on a
branch of a tree. None of them looks at an identity other than to see whether it is one it has met,
so a graph whose containers are named in another way gives the same results: the same paths, the
same answers, the same tree, and where a result is a value, this value under its new name.

A renaming keeps objects and arrays apart, for each kind has names of its own. It is one-to-one on
all names, in use or not; one that is given for the names in use can be extended to the others.

* `entries_rename` / `ownField_rename`: a container renamed has its children renamed.
* `searchKey_rename` / `tour_rename` / `agree_rename` / `toJson_rename` / `resolve_rename`: each
  traversal of the renamed graph goes step by step with that of the graph.
* `results_rename`: all of them together.
-/

namespace DocGraph

/-- A one-to-one renaming of objects and one of arrays. -/
structure Renaming where
  objects : Equiv.Perm Nat
  arrays : Equiv.Perm Nat

/-! ## Renamed containers and values -/

section Names

variable (r : Renaming)

def Container.rename : Container → Container
  | .object id => .object (r.objects id)
  | .array id => .array (r.arrays id)

theorem Container.rename_injective : Function.Injective (Container.rename r) := by
  intro c d hEq
  cases c with
  | object a =>
    cases d with
    | object b => exact congrArg _ (r.objects.injective (Container.object.inj hEq))
    | array b => cases hEq
  | array a =>
    cases d with
    | object b => cases hEq
    | array b => exact congrArg _ (r.arrays.injective (Container.array.inj hEq))

@[simp]
theorem Container.rename_inj {c d : Container} : c.rename r = d.rename r ↔ c = d :=
  (Container.rename_injective r).eq_iff

@[simp]
theorem Container.rename_mem_map {c : Container} {l : List Container} :
    c.rename r ∈ l.map (Container.rename r) ↔ c ∈ l :=
  List.mem_map_of_injective (Container.rename_injective r)

/-- The value with the container that it names renamed. -/
def Value.rename : Value → Value
  | .container c => .container (c.rename r)
  | .absent => .absent
  | .null => .null
  | .bool b => .bool b
  | .number n => .number n
  | .text s => .text s

@[simp]
theorem Value.container?_rename (v : Value) :
    (v.rename r).container? = v.container?.map (Container.rename r) := by
  cases v <;> rfl

@[simp]
theorem Value.isAbsent_rename (v : Value) : (v.rename r).isAbsent = v.isAbsent := by
  cases v <;> rfl

/-- Strict equality sees no names, only whether two of them are the same. -/
theorem Value.beq_rename (v w : Value) : (v.rename r == w.rename r) = (v == w) := by
  cases v with
  | container c =>
    cases w with
    | container d =>
      change (c.rename r == d.rename r) = (c == d)
      rw [Bool.eq_iff_iff, beq_iff_eq, beq_iff_eq, Container.rename_inj]
    | absent | null | bool | number | text => rfl
  | absent | null | bool | number | text => cases w <;> rfl

/-- An entry with its child renamed. -/
def renameEntry {κ : Type} (e : κ × Value) : κ × Value :=
  (e.1, e.2.rename r)

end Names

/-- The second heap is the first with its containers renamed: an object under its new name has the
same fields in the same order, an array as many elements, and their values are renamed. -/
structure Heap.Renames (r : Renaming) (h k : Heap) : Prop where
  fields : ∀ id, (k.fields (r.objects id)).toList = (h.fields id).toList.map (renameEntry r)
  items : ∀ id, k.items (r.arrays id) = (h.items id).map (Value.rename r)

namespace Heap.Renames

variable {r : Renaming} {h k : Heap}

theorem get?_rename (hr : h.Renames r k) (id : Nat) (name : String) :
    (k.fields (r.objects id)).get? name = ((h.fields id).get? name).map (Value.rename r) := by
  rw [Fields.get?, Fields.get?, hr.fields]
  induction (h.fields id).toList with
  | nil => rfl
  | cons e rest ih =>
    rw [List.map_cons, renameEntry, List.lookup_cons, List.lookup_cons]
    cases name == e.1 with
    | true => rfl
    | false => exact ih

theorem entries_rename (hr : h.Renames r k) (c : Container) :
    k.entries (c.rename r) = (h.entries c).map (renameEntry r) := by
  cases c with
  | object id =>
    rw [Container.rename, Heap.entries, Heap.entries, hr.fields, List.map_map, List.map_map]
    rfl
  | array id =>
    rw [Container.rename, Heap.entries, Heap.entries, hr.items, List.zipIdx_map, List.map_map,
      List.map_map]
    rfl

theorem ownField_rename (hr : h.Renames r k) (c : Container) (key : String) :
    k.ownField (c.rename r) key = (h.ownField c key).map (Value.rename r) := by
  cases c with
  | object id => exact hr.get?_rename id key
  | array id =>
    rw [Container.rename, Heap.ownField, Heap.ownField, hr.items]
    cases Index.parse? key with
    | none => rfl
    | some position => exact List.getElem?_map

/-! ## Following paths -/

theorem step_rename (hr : h.Renames r k) (v : Value) (token : String) :
    Path.step k (v.rename r) token = (Path.step h v token).map (Value.rename r) := by
  rw [Path.step_eq, Path.step_eq, Value.container?_rename]
  cases v.container? with
  | none => rfl
  | some c => exact hr.ownField_rename c token

theorem evaluate_rename (hr : h.Renames r k) (root : Value) (tokens : List String) :
    Path.evaluate k (root.rename r) tokens =
      (Path.evaluate h root tokens).map (Value.rename r) := by
  have hFold : ∀ v : Value, tokens.foldlM (Path.step k) (v.rename r) =
      (tokens.foldlM (Path.step h) v).map (Value.rename r) := by
    induction tokens with
    | nil =>
      intro v
      rfl
    | cons token tokens ih =>
      intro v
      rw [List.foldlM_cons, List.foldlM_cons, hr.step_rename]
      cases Path.step h v token with
      | none => rfl
      | some w => exact ih w
  unfold Path.evaluate
  split
  · rfl
  · exact hFold root

theorem resolve_rename (hr : h.Renames r k) (root : Value) (place : Path.Locator)
    (fallback : Value) :
    Path.resolve k (root.rename r) place (fallback.rename r) =
      (Path.resolve h root place fallback).rename r := by
  unfold Path.resolve
  rw [hr.evaluate_rename]
  cases Path.evaluate h root place.toTokens with
  | none => rfl
  | some v =>
    simp only [Option.map_some, Value.isAbsent_rename]
    split <;> rfl

/-! ## Trees -/

theorem toJson_rename (hr : h.Renames r k) (above : List Container) (v : Value) :
    k.toJson (above.map (Container.rename r)) (v.rename r) = h.toJson above v := by
  induction above, v using Heap.toJson.induct h with
  | case1 | case2 | case3 | case4 | case5 => simp only [Value.rename, Heap.toJson]
  | case6 above c hAbove =>
    rw [Value.rename, Heap.toJson_above hAbove,
      Heap.toJson_above ((Container.rename_mem_map r).2 hAbove)]
  | case7 above id hAbove _ ih =>
    have hNew := mt (Container.rename_mem_map r).1 hAbove
    -- the same fields are shown, each with its value renamed
    have hShown : k.shownFields (r.objects id) = (h.shownFields id).map (renameEntry r) := by
      rw [Heap.shownFields, Heap.shownFields, hr.fields, List.filter_map]
      simp only [Function.comp_def, renameEntry, Value.isAbsent_rename]
    rw [Value.rename, Container.rename, Heap.toJson_object hAbove, Heap.toJson_object hNew, hShown,
      List.map_map]
    congr 1
    refine List.map_congr_left fun e hMem => ?_
    exact congrArg (Prod.mk e.1) (ih e.1 e.2 (List.mem_filter.1 hMem).1)
  | case8 above id hAbove _ ih =>
    have hNew := mt (Container.rename_mem_map r).1 hAbove
    rw [Value.rename, Container.rename, Heap.toJson_array hAbove, Heap.toJson_array hNew, hr.items,
      List.map_map]
    congr 1
    exact List.map_congr_left fun child hMem => ih child hMem

end Heap.Renames

namespace Search

/-! ## Containers entered -/

section Names

variable (r : Renaming)

/-- The containers entered, renamed. -/
def Visited.rename (v : Visited) : Visited :=
  ⟨v.entered.map (Container.rename r), v.nodup.map (Container.rename_injective r)⟩

theorem Visited.enter?_rename (v : Visited) (c : Container) :
    (v.rename r).enter? (c.rename r) = (v.enter? c).map (Visited.rename r) := by
  by_cases hMem : c ∈ v.entered
  · have hNew := (Container.rename_mem_map r).2 hMem
    rw [enter?_eq_none_iff.2 hMem, enter?_eq_none_iff.2 hNew]
    rfl
  · have hNew := mt (Container.rename_mem_map r).1 hMem
    simp only [enter?, hMem, ↓reduceDIte, Option.map_some]
    exact dif_neg hNew

/-- A container that waits, renamed, with its path and depth. -/
def Pending.rename (p : Pending) : Pending :=
  { p with container := p.container.rename r }

/-- A field found, at the same place and depth, with its value renamed. -/
def KeyMatch.rename (m : KeyMatch) : KeyMatch :=
  { m with value := m.value.rename r }

def KeyOutcome.rename (o : KeyOutcome) : KeyOutcome :=
  { o with found := o.found.map (KeyMatch.rename r) }

/-- A stop, renamed, with the keys that lead to it. -/
def Stop.rename (s : Stop) : Stop :=
  { s with container := s.container.rename r }

def Candidate.rename (c : Candidate) : Candidate :=
  { c with owner := c.owner.rename r, value := c.value.rename r }

def renamePair (p : Value × Value) : Value × Value :=
  (p.1.rename r, p.2.rename r)

def renameAssumption (p : Assumption) : Assumption :=
  (p.1.rename r, p.2.rename r)

/-- Two containers are one, or a pair assumed equal, exactly if this holds of them renamed. -/
theorem known_rename_iff {assumed : List Assumption} {a b : Container} :
    (a.rename r = b.rename r ∨
      (a.rename r, b.rename r) ∈ assumed.map (renameAssumption r)) ↔
      (a = b ∨ (a, b) ∈ assumed) := by
  have hInjective : Function.Injective (renameAssumption r) :=
    (Container.rename_injective r).prodMap (Container.rename_injective r)
  rw [Container.rename_inj]
  exact or_congr_right (List.mem_map_of_injective (a := (a, b)) hInjective)

theorem not_containers_rename {v w : Value}
    (hvw : ∀ a b, v = .container a → w = .container b → False) (a b : Container)
    (hv : v.rename r = .container a) (hw : w.rename r = .container b) : False := by
  cases v with
  | container c =>
    cases w with
    | container d => exact hvw c d rfl rfl
    | absent | null | bool | number | text => cases hw
  | absent | null | bool | number | text => cases hv

theorem keyIn_rename (c : Container) (name : String) : keyIn (c.rename r) name = keyIn c name := by
  cases c with
  | object id => rfl
  | array id => cases hParse : Index.parse? name <;> simp [keyIn, Container.rename, hParse]

end Names

end Search

namespace Heap.Renames

open Search

variable {r : Renaming} {h k : Heap}

/-! ## The search for a name -/

theorem pendingChildren_rename (hr : h.Renames r k) (p : Pending) :
    (p.rename r).children k = (p.children h).map (Pending.rename r) := by
  rw [Pending.children, Pending.children, Pending.rename, hr.entries_rename, List.filterMap_map,
    List.map_filterMap]
  congr 1
  funext e
  simp [renameEntry, Function.comp_def, Pending.rename]

theorem searchKey_rename (hr : h.Renames r k) (name : String) (queue : List Pending)
    (visited : Visited) :
    searchKey k name (queue.map (Pending.rename r)) (visited.rename r) =
      (searchKey h name queue visited).rename r := by
  -- by the cases of the search of the graph; each decides the same step of the other search
  induction queue, visited using searchKey.induct h name with
  | case1 visited =>
    simp [searchKey, KeyOutcome.rename, Visited.rename, Visited.size]
  | case2 visited p rest hEnter ih =>
    have hEnter' : (visited.rename r).enter? (p.rename r).container = none := by
      rw [Pending.rename, Visited.enter?_rename, hEnter, Option.map_none]
    rw [List.map_cons, searchKey_skip hEnter', searchKey_skip hEnter, ih]
  | case3 visited p rest visited' hEnter v hOwn =>
    have hEnter' : (visited.rename r).enter? (p.rename r).container =
        some (visited'.rename r) := by
      rw [Pending.rename, Visited.enter?_rename, hEnter, Option.map_some]
    have hOwn' : k.ownField (p.rename r).container name = some (v.rename r) := by
      rw [Pending.rename, hr.ownField_rename, hOwn, Option.map_some]
    rw [List.map_cons, searchKey_stop hEnter' hOwn', searchKey_stop hEnter hOwn]
    simp [KeyOutcome.rename, KeyMatch.rename, Pending.rename, keyIn_rename, Visited.rename,
      Visited.size]
  | case4 visited p rest visited' hEnter hOwn ih =>
    have hEnter' : (visited.rename r).enter? (p.rename r).container =
        some (visited'.rename r) := by
      rw [Pending.rename, Visited.enter?_rename, hEnter, Option.map_some]
    have hOwn' : k.ownField (p.rename r).container name = none := by
      rw [Pending.rename, hr.ownField_rename, hOwn, Option.map_none]
    rw [List.map_cons, searchKey_expand hEnter' hOwn', searchKey_expand hEnter hOwn,
      hr.pendingChildren_rename, ← List.map_append, ih]

theorem findKeyMatch_rename (hr : h.Renames r k) (root : Value) (name : String) :
    findKeyMatch k (root.rename r) name =
      (findKeyMatch h root name).map (Option.map (KeyMatch.rename r)) := by
  unfold findKeyMatch findKey
  split
  · rfl
  · rw [Value.container?_rename]
    cases root.container? with
    | none => rfl
    | some c =>
      have hRun := hr.searchKey_rename name [⟨c, none, 0⟩] .empty
      exact congrArg (fun o : KeyOutcome => Except.ok o.found) hRun

/-! ## The search for a value -/

theorem stopChildren_rename (hr : h.Renames r k) (s : Stop) :
    (s.rename r).children k = (s.children h).map (Stop.rename r) := by
  rw [Stop.children, Stop.children, Stop.rename, hr.entries_rename, List.filterMap_map,
    List.map_filterMap]
  congr 1
  funext e
  simp [renameEntry, Function.comp_def, Stop.rename]

theorem tour_rename (hr : h.Renames r k) (stack : List Stop) (visited : Visited) :
    tour k (stack.map (Stop.rename r)) (visited.rename r) =
      (tour h stack visited).map (Stop.rename r) := by
  induction stack, visited using tour.induct h with
  | case1 visited => simp [tour]
  | case2 visited s rest hEnter ih =>
    have hEnter' : (visited.rename r).enter? (s.rename r).container = none := by
      rw [Stop.rename, Visited.enter?_rename, hEnter, Option.map_none]
    rw [List.map_cons, tour_skip hEnter', tour_skip hEnter, ih]
  | case3 visited s rest visited' hEnter ih =>
    have hEnter' : (visited.rename r).enter? (s.rename r).container =
        some (visited'.rename r) := by
      rw [Stop.rename, Visited.enter?_rename, hEnter, Option.map_some]
    rw [List.map_append, List.map_reverse, ← hr.stopChildren_rename] at ih
    rw [List.map_cons, tour_enter hEnter', tour_enter hEnter, List.map_cons, ih]

theorem candidates_rename (hr : h.Renames r k) (root : Container) :
    candidates k (root.rename r) = (candidates h root).map (Candidate.rename r) := by
  have hTour := hr.tour_rename [⟨root, []⟩] .empty
  have hStop : ∀ s : Stop,
      (s.rename r).candidates k = (s.candidates h).map (Candidate.rename r) := by
    intro s
    rw [Stop.candidates, Stop.candidates, Stop.rename, hr.entries_rename, List.map_map,
      List.map_map]
    rfl
  calc candidates k (root.rename r)
      = ((tour h [⟨root, []⟩] .empty).map (Stop.rename r)).flatMap (Stop.candidates k) :=
        congrArg (List.flatMap (Stop.candidates k)) hTour
    _ = (candidates h root).map (Candidate.rename r) := by
        rw [List.flatMap_map, candidates, List.map_flatMap]
        simp only [hStop]

/-- Two comparators that say the same of a candidate under either name report the same. -/
theorem findValueReport_rename (hr : h.Renames r k) {root target target' : Value}
    {comparator comparator' : Comparator}
    (hJudge : ∀ v, comparator'.judge k (v.rename r) target' = comparator.judge h v target) :
    findValueReport k (root.rename r) target' comparator' =
      findValueReport h root target comparator := by
  cases hRoot : root.container? with
  | none =>
    have hRoot' : (root.rename r).container? = none := by
      rw [Value.container?_rename, hRoot, Option.map_none]
    simp [findValueReport, findValue?, hRoot, hRoot']
  | some c =>
    obtain rfl := Value.container?_eq_some_iff.1 hRoot
    rw [Value.rename, findValueReport_eq, findValueReport_eq, hr.candidates_rename]
    have hPath : ∀ c : Candidate, (c.rename r).path = c.path := fun _ => rfl
    have hValue : ∀ c : Candidate, (c.rename r).value = c.value.rename r := fun _ => rfl
    simp only [Report.ofCandidates, List.filter_map, List.map_map, List.filterMap_map,
      Function.comp_def, hPath, hValue, hJudge]

/-! ## Deep equality -/

theorem mapM_option_map {α β γ : Type} (f : α → Option β) (g : β → γ) (l : List α) :
    l.mapM (fun a => (f a).map g) = (l.mapM f).map (List.map g) := by
  induction l with
  | nil => rfl
  | cons a l ih =>
    rw [List.mapM_cons, List.mapM_cons, ih]
    cases f a with
    | none => rfl
    | some b => cases l.mapM f <;> rfl

theorem pairChildren_rename (hr : h.Renames r k) (a b : Container) :
    pairChildren k (a.rename r) (b.rename r) =
      (pairChildren h a b).map (List.map (renamePair r)) := by
  match a, b with
  | .object a, .object b =>
    have hSize : ∀ id, (k.fields (r.objects id)).size = (h.fields id).size := by
      intro id
      rw [Fields.size, Fields.size, hr.fields, List.length_map]
    simp only [Container.rename, pairChildren, hSize]
    split
    · rw [hr.fields, List.mapM_map, ← mapM_option_map]
      congr 1
      funext e
      simp [renameEntry, hr.get?_rename, Function.comp_def, renamePair]
    · rfl
  | .array a, .array b =>
    simp only [Container.rename, pairChildren, hr.items, List.length_map]
    split
    · rw [List.zip_map]
      rfl
    · rfl
  | .object a, .array b => rfl
  | .array a, .object b => rfl

theorem agree_rename (hr : h.Renames r k) (assumed : List Assumption)
    (waiting : List (Value × Value)) :
    agree k (assumed.map (renameAssumption r)) (waiting.map (renamePair r)) =
      (agree h assumed waiting).map (List.map (renameAssumption r)) := by
  induction assumed, waiting using agree.induct h with
  | case1 assumed => simp [agree]
  | case2 assumed a b rest hab ih =>
    rw [List.map_cons, renamePair, Value.rename, Value.rename, agree_skip hab,
      agree_skip ((known_rename_iff r).2 hab), ih]
  | case3 assumed a b rest hab hp =>
    have hp' : pairChildren k (a.rename r) (b.rename r) = none := by
      rw [hr.pairChildren_rename, hp, Option.map_none]
    rw [List.map_cons, renamePair, Value.rename, Value.rename, agree_differ hab hp,
      agree_differ (mt (known_rename_iff r).1 hab) hp', Option.map_none]
  | case4 assumed a b rest hab children hp ih =>
    have hp' : pairChildren k (a.rename r) (b.rename r) = some (children.map (renamePair r)) := by
      rw [hr.pairChildren_rename, hp, Option.map_some]
    rw [List.map_cons, List.map_append, renameAssumption] at ih
    rw [List.map_cons, renamePair, Value.rename, Value.rename, agree_open hab hp,
      agree_open (mt (known_rename_iff r).1 hab) hp', ih]
  | case5 assumed v w rest hvw hEq ih =>
    rw [List.map_cons, renamePair, agree_other hvw, agree_other (not_containers_rename r hvw),
      Value.beq_rename, if_pos hEq, if_pos hEq, ih]
  | case6 assumed v w rest hvw hEq =>
    rw [List.map_cons, renamePair, agree_other hvw, agree_other (not_containers_rename r hvw),
      Value.beq_rename, if_neg hEq, if_neg hEq, Option.map_none]

theorem structuralEq_rename (hr : h.Renames r k) (a b : Value) :
    structuralEq k (a.rename r) (b.rename r) = structuralEq h a b := by
  have hRun := congrArg Option.isSome (hr.agree_rename [] [(a, b)])
  rw [Option.isSome_map] at hRun
  exact hRun

theorem findValueReport_strict_rename (hr : h.Renames r k) (root target : Value) :
    findValueReport k (root.rename r) (target.rename r) .strict =
      findValueReport h root target .strict :=
  hr.findValueReport_rename fun v => congrArg Verdict.ofBool (Value.beq_rename r v target)

theorem findValueReport_structural_rename (hr : h.Renames r k) (root target : Value) :
    findValueReport k (root.rename r) (target.rename r) .structural =
      findValueReport h root target .structural :=
  hr.findValueReport_rename fun v => congrArg Verdict.ofBool (hr.structuralEq_rename v target)

theorem findByValueNamed_rename (hr : h.Renames r k) (root target : Value) (name : Option String) :
    findByValueNamed k (root.rename r) (target.rename r) name =
      findByValueNamed h root target name := by
  have hStrict := congrArg Report.paths (hr.findValueReport_strict_rename root target)
  have hStructural := congrArg Report.paths (hr.findValueReport_structural_rename root target)
  cases name with
  | none => exact congrArg Except.ok hStrict
  | some name =>
    -- a name stands for one of the two comparators or for none
    unfold findByValueNamed Comparator.ofName
    simp only
    split
    · exact congrArg Except.ok hStrict
    · split
      · exact congrArg Except.ok hStructural
      · rfl

end Heap.Renames

open DocGraph.Search DocGraph.Path

/-- If a graph is another with its containers renamed, no result tells the two apart. The search for
a name finds the same path and depth, and the value renamed; the search for a value finds the same
paths, with either comparator and by either's name; deep and strict equality give the same answers;
the tree is the same; and a path leads to the value renamed, or to the fallback. -/
theorem results_rename {r : Renaming} {h k : Heap} (hr : h.Renames r k) :
    (∀ root name, findKeyMatch k (root.rename r) name =
      (findKeyMatch h root name).map (Option.map (KeyMatch.rename r))) ∧
    (∀ root target, findValueReport k (root.rename r) (target.rename r) .strict =
        findValueReport h root target .strict ∧
      findValueReport k (root.rename r) (target.rename r) .structural =
        findValueReport h root target .structural) ∧
    (∀ root target name, findByValueNamed k (root.rename r) (target.rename r) name =
      findByValueNamed h root target name) ∧
    (∀ v w : Value, structuralEq k (v.rename r) (w.rename r) = structuralEq h v w ∧
      (v.rename r == w.rename r) = (v == w)) ∧
    (∀ v : Value, (v.rename r).toJson k = v.toJson h) ∧
    ∀ root place fallback, resolve k (root.rename r) place (fallback.rename r) =
      (resolve h root place fallback).rename r :=
  ⟨hr.findKeyMatch_rename,
    fun root target => ⟨hr.findValueReport_strict_rename root target,
      hr.findValueReport_structural_rename root target⟩,
    hr.findByValueNamed_rename,
    fun v w => ⟨hr.structuralEq_rename v w, Value.beq_rename r v w⟩,
    hr.toJson_rename [],
    hr.resolve_rename⟩

/-! ## Renaming what is in use -/

/-- A renaming of the containers in use, with all other names left as they are. -/
def Renaming.ofUsed {m n : Nat} (objects : Equiv.Perm (Fin m)) (arrays : Equiv.Perm (Fin n)) :
    Renaming :=
  ⟨objects.extendDomain Fin.equivSubtype, arrays.extendDomain Fin.equivSubtype⟩

theorem extendDomain_fin {n : Nat} (e : Equiv.Perm (Fin n)) (id : Fin n) :
    e.extendDomain Fin.equivSubtype (id : Nat) = (e id : Nat) :=
  e.extendDomain_apply_image Fin.equivSubtype id

theorem extendDomain_of_le {n : Nat} (e : Equiv.Perm (Fin n)) {id : Nat} (hid : n ≤ id) :
    e.extendDomain Fin.equivSubtype id = id :=
  e.extendDomain_apply_not_subtype Fin.equivSubtype (Nat.not_lt.2 hid)

/-- Two heaps of equally many containers need to be compared at the containers in use only. -/
theorem Heap.renames_ofUsed {h k : Heap} {m n : Nat} {objects : Equiv.Perm (Fin m)}
    {arrays : Equiv.Perm (Fin n)} (hObjects : h.objects.size = m ∧ k.objects.size = m)
    (hArrays : h.arrays.size = n ∧ k.arrays.size = n)
    (hFields : ∀ id : Fin m, (k.fields (objects id)).toList =
      (h.fields id).toList.map (renameEntry (.ofUsed objects arrays)))
    (hItems : ∀ id : Fin n, k.items (arrays id) =
      (h.items id).map (Value.rename (.ofUsed objects arrays))) :
    h.Renames (.ofUsed objects arrays) k where
  fields := by
    intro id
    by_cases hid : id < m
    · have hUsed : (Renaming.ofUsed objects arrays).objects id = objects ⟨id, hid⟩ :=
        extendDomain_fin objects ⟨id, hid⟩
      rw [hUsed]
      exact hFields ⟨id, hid⟩
    -- a name that is not in use stands for an empty object on both sides
    · have hUnused : (Renaming.ofUsed objects arrays).objects id = id :=
        extendDomain_of_le objects (Nat.not_lt.1 hid)
      rw [hUnused]
      simp [Heap.fields, hObjects, hid, Fields.empty]
  items := by
    intro id
    by_cases hid : id < n
    · have hUsed : (Renaming.ofUsed objects arrays).arrays id = arrays ⟨id, hid⟩ :=
        extendDomain_fin arrays ⟨id, hid⟩
      rw [hUsed]
      exact hItems ⟨id, hid⟩
    · have hUnused : (Renaming.ofUsed objects arrays).arrays id = id :=
        extendDomain_of_le arrays (Nat.not_lt.1 hid)
      rw [hUnused]
      simp [Heap.items, hArrays, hid]

/-- The two objects of `loopHeap` under each other's names. -/
def swappedLoopHeap : Heap where
  objects := #[
    .ofList [("id", .null)],
    .ofList [("self", .container (.object 1)), ("list", .container (.array 0)),
      ("item", .container (.object 0))]]
  arrays := #[[.container (.object 0)]]

def loopSwap : Renaming :=
  .ofUsed (Equiv.swap (0 : Fin 2) 1) (Equiv.refl (Fin 1))

theorem renames_loopHeap : loopHeap.Renames loopSwap swappedLoopHeap := by
  refine Heap.renames_ofUsed ⟨rfl, rfl⟩ ⟨rfl, rfl⟩ (Fin.forall_fin_two.2 ⟨?_, ?_⟩)
    (Fin.forall_fin_one.2 ?_)
  · rfl
  · rfl
  · rfl

theorem results_rename_loop :
    loopHeap.Renames loopSwap swappedLoopHeap ∧
      (Value.container (.object 0)).rename loopSwap = .container (.object 1) ∧
      findKeyMatch swappedLoopHeap (.container (.object 1)) "self" =
        (findKeyMatch loopHeap (.container (.object 0)) "self").map
          (Option.map (KeyMatch.rename loopSwap)) ∧
      findValueReport swappedLoopHeap (.container (.object 1)) (.container (.object 0)) .structural =
        findValueReport loopHeap (.container (.object 0)) (.container (.object 1)) .structural ∧
      findByValueNamed swappedLoopHeap (.container (.object 1)) (.container (.object 0)) none =
        findByValueNamed loopHeap (.container (.object 0)) (.container (.object 1)) none ∧
      structuralEq swappedLoopHeap (.container (.object 1)) (.container (.object 0)) =
        structuralEq loopHeap (.container (.object 0)) (.container (.object 1)) ∧
      (Value.container (.object 1)).toJson swappedLoopHeap =
        (Value.container (.object 0)).toJson loopHeap ∧
      resolve swappedLoopHeap (.container (.object 1)) (.expression "list[0]") .absent =
        (resolve loopHeap (.container (.object 0)) (.expression "list[0]") .absent).rename
          loopSwap := by
  obtain ⟨hKey, hReport, hNamed, hEq, hTree, hPath⟩ := results_rename renames_loopHeap
  refine ⟨renames_loopHeap, rfl, ?_, ?_, ?_, ?_, ?_, ?_⟩
  · exact hKey (.container (.object 0)) "self"
  · exact (hReport (.container (.object 0)) (.container (.object 1))).2
  · exact hNamed (.container (.object 0)) (.container (.object 1)) none
  · exact (hEq (.container (.object 0)) (.container (.object 1))).1
  · exact hTree (.container (.object 0))
  · exact hPath (.container (.object 0)) (.expression "list[0]") .absent

end DocGraph
