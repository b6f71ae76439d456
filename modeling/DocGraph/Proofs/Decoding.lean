import DocGraph.Document
import DocGraph.Proofs.Below
import DocGraph.Proofs.RoundTrip
import Mathlib.Data.List.Perm.Subperm

/-!
# DocGraph: what is decoded is a tree of its own

Decoding a text places its containers on the heap one by one, children before their owner. What it
leaves is a tree: all its containers are new, each is reached along one route, and nothing in it is
absent. A key that comes twice leaves a branch behind that nothing leads to, which is why the
argument is about rows of values made one after the other, and not about what is kept of them.

`Builds` says how such a row is made. A row is made between two heaps, so what its values lead to
lies between the two, and values further behind in it lead to something else. `Grown` is what
follows for the values of a row, whatever is added to the heap later.

* `Yaml.load_eq`: a YAML tree is loaded like the JSON tree without its tags.
* `Json.load_builds`: loading builds a row, over the scalars of the tree.
* `Builds.grown`: what holds of a row, by induction on how it is made.
* `route_unique` / `not_mem_owners`: where no two children lead to one container, there is one route
  to each container, and none goes through its own end.
* `decoded_is_fresh_tree`: trees, and what follows for searches and for writing them out again.
-/

namespace DocGraph

/-! ## Trees of either format -/

mutual

/-- The tree without its tags, keys named by their texts. -/
def Yaml.plain : Yaml → Json
  | .null => .null
  | .bool b => .bool b
  | .number n => .number n
  | .text s => .text s
  | .sequence items => .array (Yaml.plainItems items)
  | .mapping entries => .object (Yaml.plainEntries entries)
  | .tagged _ inner => Yaml.plain inner

def Yaml.plainItems : List Yaml → List Json
  | [] => []
  | v :: rest => Yaml.plain v :: Yaml.plainItems rest

def Yaml.plainEntries : List (Yaml × Yaml) → List (String × Json)
  | [] => []
  | (key, v) :: rest => (key.keyText, Yaml.plain v) :: Yaml.plainEntries rest

end

mutual

theorem Yaml.load_eq : ∀ (t : Yaml) (h : Heap), t.load h = t.plain.load h
  | .null, _ => by rw [Yaml.load, Yaml.plain, Json.load]
  | .bool _, _ => by rw [Yaml.load, Yaml.plain, Json.load]
  | .number _, _ => by rw [Yaml.load, Yaml.plain, Json.load]
  | .text _, _ => by rw [Yaml.load, Yaml.plain, Json.load]
  | .sequence items, h => by rw [Yaml.load, Yaml.plain, Json.load, Yaml.loadItems_eq items h]
  | .mapping entries, h => by rw [Yaml.load, Yaml.plain, Json.load, Yaml.loadEntries_eq entries h]
  | .tagged _ inner, h => by rw [Yaml.load, Yaml.plain, Yaml.load_eq inner h]

theorem Yaml.loadItems_eq :
    ∀ (items : List Yaml) (h : Heap), Yaml.loadItems h items = Json.loadItems h (Yaml.plainItems items)
  | [], _ => by rw [Yaml.loadItems, Yaml.plainItems, Json.loadItems]
  | v :: rest, h => by
    rw [Yaml.loadItems, Yaml.plainItems, Json.loadItems, Yaml.load_eq v h]
    simp only [Yaml.loadItems_eq rest]

theorem Yaml.loadEntries_eq :
    ∀ (entries : List (Yaml × Yaml)) (h : Heap),
      Yaml.loadEntries h entries = Json.loadMembers h (Yaml.plainEntries entries)
  | [], _ => by rw [Yaml.loadEntries, Yaml.plainEntries, Json.loadMembers]
  | (key, v) :: rest, h => by
    rw [Yaml.loadEntries, Yaml.plainEntries, Json.loadMembers, Yaml.load_eq v h]
    simp only [Yaml.loadEntries_eq rest]

end

/-- What a text decodes to, by its format. -/
inductive Decoded where
  | json (t : Json)
  | yaml (t : Yaml)

namespace Decoded

def load (h : Heap) : Decoded → Value × Heap
  | json t => t.load h
  | yaml t => t.load h

def plain : Decoded → Json
  | json t => t
  | yaml t => t.plain

theorem load_eq (t : Decoded) (h : Heap) : t.load h = t.plain.load h := by
  cases t with
  | json t => rfl
  | yaml t => exact Yaml.load_eq t h

end Decoded

/-- A text is decoded by loading a tree. -/
theorem exists_load_of_parseDocument {h k : Heap} {format : Format} {text : String} {v : Value}
    (hParse : parseDocument h format text = .ok (v, k)) : ∃ t : Decoded, t.load h = (v, k) := by
  cases format with
  | json =>
    rw [parseDocument, parseJson] at hParse
    split at hParse
    · rename_i t _
      exact ⟨.json t, Except.ok.inj hParse⟩
    · contradiction
  | yaml =>
    rw [parseDocument, parseYaml] at hParse
    split at hParse
    · rename_i t _
      exact ⟨.yaml t, Except.ok.inj hParse⟩
    · contradiction

mutual

/-- The scalars of a tree, as values. -/
def Json.scalars : Json → List Value
  | .null => [.null]
  | .bool b => [.bool b]
  | .number n => [.number (.ofNumeral n)]
  | .text s => [.text s]
  | .array items => Json.itemScalars items
  | .object members => Json.memberScalars members

def Json.itemScalars : List Json → List Value
  | [] => []
  | v :: rest => v.scalars ++ Json.itemScalars rest

def Json.memberScalars : List (String × Json) → List Value
  | [] => []
  | (_, v) :: rest => v.scalars ++ Json.memberScalars rest

end

mutual

theorem Json.absent_not_mem_scalars : ∀ t : Json, .absent ∉ t.scalars
  | .null => by simp [Json.scalars]
  | .bool _ => by simp [Json.scalars]
  | .number _ => by simp [Json.scalars]
  | .text _ => by simp [Json.scalars]
  | .array items => by
    rw [Json.scalars]
    exact Json.absent_not_mem_itemScalars items
  | .object members => by
    rw [Json.scalars]
    exact Json.absent_not_mem_memberScalars members

theorem Json.absent_not_mem_itemScalars : ∀ items : List Json, .absent ∉ Json.itemScalars items
  | [] => by simp [Json.itemScalars]
  | v :: rest => by
    rw [Json.itemScalars, List.mem_append, not_or]
    exact ⟨Json.absent_not_mem_scalars v, Json.absent_not_mem_itemScalars rest⟩

theorem Json.absent_not_mem_memberScalars :
    ∀ members : List (String × Json), .absent ∉ Json.memberScalars members
  | [] => by simp [Json.memberScalars]
  | (_, v) :: rest => by
    rw [Json.memberScalars, List.mem_append, not_or]
    exact ⟨Json.absent_not_mem_scalars v, Json.absent_not_mem_memberScalars rest⟩

end

/-! ## Fields and what they were made from -/

theorem subperm_replace {α : Type} (name : String) (value : α) (l : List (String × α)) :
    (Fields.replace name value l).Subperm (l ++ [(name, value)]) := by
  induction l with
  | nil => exact List.nil_subperm
  | cons p rest ih =>
    unfold Fields.replace
    split
    -- the pair replaced is left out, and the new one stands in its place
    · rename_i hName
      rw [hName, List.cons_append]
      have hPerm : ((name, value) :: rest).Perm (rest ++ [(name, value)]) :=
        (List.perm_append_singleton _ _).symm
      exact hPerm.subperm.trans (List.sublist_cons_self _ _).subperm
    · exact (List.subperm_cons p).2 ih

/-- The fields that binding some pairs makes are some of these pairs. -/
theorem subperm_ofList {α : Type} (pairs : List (String × α)) :
    (Fields.ofList pairs).toList.Subperm pairs := by
  have hFold : ∀ (pairs : List (String × α)) (f : Fields α),
      (pairs.foldl (fun f p => f.insert p.1 p.2) f).toList.Subperm (f.toList ++ pairs) := by
    intro pairs
    induction pairs with
    | nil =>
      intro f
      rw [List.append_nil]
      exact List.Subperm.refl _
    | cons p pairs ih =>
      intro f
      have hInsert : (f.insert p.1 p.2).toList.Subperm (f.toList ++ [p]) := by
        by_cases hName : p.1 ∈ f.toList.map Prod.fst
        · rw [Fields.toList_insert_of_mem hName]
          exact subperm_replace _ _ _
        · rw [Fields.toList_insert_of_not_mem hName]
      have hRest := ih (f.insert p.1 p.2)
      have hAppend := hInsert.append (List.Subperm.refl pairs)
      rw [List.append_assoc, List.singleton_append] at hAppend
      exact hRest.trans hAppend
  exact hFold pairs .empty

namespace Heap

/-! ## Containers of heaps that grow -/

section Extends

variable {h k : Heap} {c : Container}

theorem Extends.mem (hk : h.Extends k) (hc : c ∈ h.containers) : c ∈ k.containers := by
  cases c with
  | object id => exact (hk.object hc).1
  | array id => exact (hk.array hc).1

theorem Extends.entries_eq (hk : h.Extends k) (hc : c ∈ h.containers) :
    k.entries c = h.entries c := by
  cases c with
  | object id => rw [entries, entries, (hk.object hc).2]
  | array id => rw [entries, entries, (hk.array hc).2]

end Extends

/-- The container is new on the second heap, and its children are some of the values, each of them
once. -/
structure Places (values : List Value) (h : Heap) (c : Container) (k : Heap) : Prop where
  keeps : h.Extends k
  isNew : c ∉ h.containers
  placed : c ∈ k.containers
  children : ((k.entries c).map Prod.snd).Subperm values

theorem places_newArray (h : Heap) (values : List Value) :
    Places values h (h.newArray values).1 (h.newArray values).2 where
  keeps := extends_newArray h values
  isNew := by
    rw [newArray, array_mem_containers]
    omega
  placed := by
    rw [newArray, array_mem_containers, Array.size_push]
    omega
  children := by
    have hEntries : ((h.newArray values).2.entries (.array h.arrays.size)).map Prod.snd = values := by
      rw [entries, List.map_map, items_newArray]
      exact List.zipIdx_map_fst 0 values
    rw [show (h.newArray values).1 = .array h.arrays.size from rfl, hEntries]

theorem places_newObject (h : Heap) (pairs : List (String × Value)) :
    Places (pairs.map Prod.snd) h (h.newObject (.ofList pairs)).1
      (h.newObject (.ofList pairs)).2 where
  keeps := extends_newObject h _
  isNew := by
    rw [newObject, object_mem_containers]
    omega
  placed := by
    rw [newObject, object_mem_containers, Array.size_push]
    omega
  children := by
    have hEntries : ((h.newObject (.ofList pairs)).2.entries (.object h.objects.size)).map Prod.snd =
        (Fields.ofList pairs).toList.map Prod.snd := by
      rw [entries, List.map_map, fields_newObject]
      rfl
    rw [show (h.newObject (.ofList pairs)).1 = .object h.objects.size from rfl, hEntries]
    -- some of the pairs are kept, so some of their values are
    obtain ⟨kept, hPerm, hSub⟩ := subperm_ofList pairs
    exact ⟨kept.map Prod.snd, hPerm.map _, hSub.map _⟩

end Heap

/-! ## Rows of values made one after the other -/

/-- The values are made one after the other, from the first heap on up to the second. Each is one of
the scalars, or a new container whose children have been made just before it. -/
inductive Builds (scalars : List Value) : Heap → List Value → Heap → Prop
  | nil (h : Heap) : Builds scalars h [] h
  | scalar {h k : Heap} {v : Value} {rest : List Value} : v.container? = none → v ∈ scalars →
      Builds scalars h rest k → Builds scalars h (v :: rest) k
  | container {h k l m : Heap} {c : Container} {children rest : List Value} :
      Builds scalars h children k → Heap.Places children k c l → Builds scalars l rest m →
      Builds scalars h (.container c :: rest) m

namespace Builds

variable {scalars : List Value} {h k l : Heap} {values rest : List Value} {v : Value}

theorem keeps (hRow : Builds scalars h values k) : h.Extends k := by
  induction hRow with
  | nil h => exact .refl h
  | scalar _ _ _ ih => exact ih
  | container _ hPlaces _ ihChildren ihRest => exact (ihChildren.trans hPlaces.keeps).trans ihRest

/-- A row made behind a single value. -/
theorem cons (hFirst : Builds scalars h [v] k) (hRest : Builds scalars k rest l) :
    Builds scalars h (v :: rest) l := by
  cases hFirst with
  | scalar hScalar hMem hNil =>
    cases hNil
    exact .scalar hScalar hMem hRest
  | container hChildren hPlaces hNil =>
    cases hNil
    exact .container hChildren hPlaces hRest

theorem mono {more : List Value} (hRow : Builds scalars h values k)
    (hSub : ∀ v ∈ scalars, v ∈ more) : Builds more h values k := by
  induction hRow with
  | nil h => exact .nil h
  | scalar hScalar hMem _ ih => exact .scalar hScalar (hSub _ hMem) ih
  | container _ hPlaces _ ihChildren ihRest => exact .container ihChildren hPlaces ihRest

end Builds

mutual

theorem Json.load_builds :
    ∀ (t : Json) (h : Heap), Builds t.scalars h [(t.load h).1] (t.load h).2
  | .null, h => .scalar rfl (by simp [Json.scalars, Json.load]) (.nil h)
  | .bool _, h => .scalar rfl (by simp [Json.scalars, Json.load]) (.nil h)
  | .number _, h => .scalar rfl (by simp [Json.scalars, Json.load]) (.nil h)
  | .text _, h => .scalar rfl (by simp [Json.scalars, Json.load]) (.nil h)
  | .array items, h => by
    rw [Json.load, Json.scalars]
    exact .container (Json.loadItems_builds items h) (Heap.places_newArray _ _) (.nil _)
  | .object members, h => by
    rw [Json.load, Json.scalars]
    exact .container (Json.loadMembers_builds members h) (Heap.places_newObject _ _) (.nil _)

theorem Json.loadItems_builds :
    ∀ (items : List Json) (h : Heap),
      Builds (Json.itemScalars items) h (Json.loadItems h items).1 (Json.loadItems h items).2
  | [], h => by
    rw [Json.loadItems]
    exact .nil h
  | v :: rest, h => by
    have hFirst := (Json.load_builds v h).mono
      fun w hw => List.mem_append_left (Json.itemScalars rest) hw
    have hRest := (Json.loadItems_builds rest (v.load h).2).mono
      fun w hw => List.mem_append_right v.scalars hw
    rw [Json.loadItems, Json.itemScalars]
    exact hFirst.cons hRest

theorem Json.loadMembers_builds :
    ∀ (members : List (String × Json)) (h : Heap),
      Builds (Json.memberScalars members) h ((Json.loadMembers h members).1.map Prod.snd)
        (Json.loadMembers h members).2
  | [], h => by
    rw [Json.loadMembers]
    exact .nil h
  | (_, v) :: rest, h => by
    have hFirst := (Json.load_builds v h).mono
      fun w hw => List.mem_append_left (Json.memberScalars rest) hw
    have hRest := (Json.loadMembers_builds rest (v.load h).2).mono
      fun w hw => List.mem_append_right v.scalars hw
    rw [Json.loadMembers, Json.memberScalars]
    exact hFirst.cons hRest

end

/-! ## Values that lead to nothing in common -/

namespace Heap

/-- No container is met from both values. -/
def Apart (h : Heap) (v w : Value) : Prop :=
  ∀ c, h.Meets v c → ¬ h.Meets w c

/-- No two children of the container lead to one container, and none leads back to it. -/
structure Branches (h : Heap) (c : Container) : Prop where
  apart : ((h.entries c).map Prod.snd).Pairwise h.Apart
  away : ∀ key v, (key, v) ∈ h.entries c → ¬ h.Meets v c

section Branches

variable {h : Heap} {c d : Container} {v w : Value} {edges edges' : List Edge}

theorem Apart.symm (hApart : h.Apart v w) : h.Apart w v :=
  fun c hw hv => hApart c hv hw

theorem meets_container_iff :
    h.Meets (.container c) d ↔ d = c ∨ ∃ key v, (key, v) ∈ h.entries c ∧ h.Meets v d := by
  constructor
  · rintro ⟨edges, hRoute⟩
    cases hRoute with
    | here => exact .inl rfl
    | step hEntry hRest => exact .inr ⟨_, _, hEntry, _, hRest⟩
  · rintro (rfl | ⟨key, v, hEntry, hMeets⟩)
    · exact meets_self h d
    · exact hMeets.of_child hEntry

/-- Where all that is met branches, one route leads to each container. -/
theorem route_unique (hv : ∀ c, h.Meets v c → h.Branches c)
    (hRoute : h.Route v edges (.container d)) (hRoute' : h.Route v edges' (.container d)) :
    edges = edges' := by
  generalize hEnd : Value.container d = last at hRoute
  induction hRoute generalizing edges' with
  | here =>
    subst hEnd
    cases hRoute' with
    | here => rfl
    | step hEntry hRest =>
      have hAway := (hv d (meets_self h d)).away _ _ hEntry
      exact absurd ⟨_, hRest⟩ hAway
  | @step c key u _ edges hEntry hRest ih =>
    subst hEnd
    cases hRoute' with
    | here =>
      have hAway := (hv d (meets_self h d)).away _ _ hEntry
      exact absurd ⟨_, hRest⟩ hAway
    | @step _ key' u' _ edges' hEntry' hRest' =>
      -- the children through which the routes go on meet one container, so they are the same
      have hSame : (key, u) = (key', u') := by
        by_contra hDiffer
        have hSymm : Std.Symm fun a b : Key × Value => h.Apart a.2 b.2 := ⟨fun _ _ => Apart.symm⟩
        have hPairwise := List.pairwise_map.1 (hv c (meets_self h c)).apart
        have hApart := hPairwise.forall hEntry hEntry' hDiffer
        exact hApart d ⟨_, hRest⟩ ⟨_, hRest'⟩
      obtain ⟨rfl, rfl⟩ := Prod.mk.inj hSame
      have hTail := ih (fun e he => hv e (he.of_child hEntry)) hRest' rfl
      rw [hTail]

/-- Where all that is met branches, no route goes through the container at its end. -/
theorem not_mem_owners (hv : ∀ c, h.Meets v c → h.Branches c)
    (hRoute : h.Route v edges (.container d)) : d ∉ edges.map Edge.owner := by
  generalize hEnd : Value.container d = last at hRoute
  induction hRoute with
  | here => simp
  | @step c key u _ edges hEntry hRest ih =>
    subst hEnd
    rw [List.map_cons, List.mem_cons, not_or]
    constructor
    · rintro rfl
      exact (hv d (meets_self h d)).away _ _ hEntry ⟨_, hRest⟩
    · exact ih (fun e he => hv e (he.of_child hEntry)) rfl

end Branches

/-! ## What a row of values leads to -/

/-- What holds of a row of values made between the heaps `h` and `k`, seen on the heap `m`: they
lead to containers made between the two, no two of them to the same, over containers that branch,
and to scalars that are given. -/
structure Grown (scalars : List Value) (m h k : Heap) (values : List Value) : Prop where
  between : ∀ v ∈ values, ∀ c, m.Meets v c → c ∈ k.containers ∧ c ∉ h.containers
  apart : values.Pairwise m.Apart
  branches : ∀ v ∈ values, ∀ c, m.Meets v c → m.Branches c
  ends : ∀ v ∈ values, ∀ edges w, m.Route v edges w → w.container? = none → w ∈ scalars

namespace Grown

variable {scalars : List Value} {m h k l k' : Heap} {children rest : List Value} {v : Value}
  {c : Container}

theorem nil (scalars : List Value) (m h : Heap) : Grown scalars m h h [] where
  between := by simp
  apart := .nil
  branches := by simp
  ends := by simp

theorem scalar (hScalar : v.container? = none) (hMem : v ∈ scalars)
    (hRest : Grown scalars m h k rest) : Grown scalars m h k (v :: rest) where
  between := List.forall_mem_cons.2 ⟨fun c hMeets => absurd hMeets (not_meets_scalar hScalar c),
    hRest.between⟩
  apart := List.pairwise_cons.2 ⟨fun _ _ c hMeets => absurd hMeets (not_meets_scalar hScalar c),
    hRest.apart⟩
  branches := List.forall_mem_cons.2 ⟨fun c hMeets => absurd hMeets (not_meets_scalar hScalar c),
    hRest.branches⟩
  ends := by
    refine List.forall_mem_cons.2 ⟨fun edges w hRoute _ => ?_, hRest.ends⟩
    cases hRoute with
    | here => exact hMem
    | step => cases hScalar

/-- A container made behind its children and before the rest of a row. -/
theorem container (hChildren : Grown scalars m h k children) (hKeeps : h.Extends k)
    (hPlaces : Places children k c l) (hRest : Grown scalars m l k' rest) (hl : l.Extends k')
    (hm : k'.Extends m) : Grown scalars m h k' (.container c :: rest) := by
  have hEntries : m.entries c = l.entries c := (hl.trans hm).entries_eq hPlaces.placed
  -- the children on the last heap are some of those made
  have hChild : ∀ key v, (key, v) ∈ m.entries c → v ∈ children := by
    intro key v hEntry
    rw [hEntries] at hEntry
    exact hPlaces.children.subset (List.mem_map_of_mem (f := Prod.snd) hEntry)
  have hBetween : ∀ d, m.Meets (.container c) d → d ∈ l.containers ∧ d ∉ h.containers := by
    intro d hMeets
    rcases meets_container_iff.1 hMeets with rfl | ⟨key, v, hEntry, hMeets⟩
    · exact ⟨hPlaces.placed, fun hOld => hPlaces.isNew (hKeeps.mem hOld)⟩
    · have hMade := hChildren.between v (hChild key v hEntry) d hMeets
      exact ⟨hPlaces.keeps.mem hMade.1, hMade.2⟩
  have hBranches : m.Branches c := by
    constructor
    · obtain ⟨kept, hPerm, hSub⟩ := hPlaces.children
      rw [hEntries]
      exact (hPerm.pairwise_iff Apart.symm).1 (hChildren.apart.sublist hSub)
    · intro key v hEntry hMeets
      exact hPlaces.isNew (hChildren.between v (hChild key v hEntry) c hMeets).1
  refine ⟨?_, ?_, ?_, ?_⟩
  · refine List.forall_mem_cons.2 ⟨fun d hMeets => ?_, fun v hv d hMeets => ?_⟩
    · exact ⟨hl.mem (hBetween d hMeets).1, (hBetween d hMeets).2⟩
    · have hMade := hRest.between v hv d hMeets
      exact ⟨hMade.1, fun hOld => hMade.2 ((hKeeps.trans hPlaces.keeps).mem hOld)⟩
  -- what the container leads to was there before the rest of the row
  · refine List.pairwise_cons.2 ⟨fun v hv d hMeets hMeets' => ?_, hRest.apart⟩
    exact (hRest.between v hv d hMeets').2 (hBetween d hMeets).1
  · refine List.forall_mem_cons.2 ⟨fun d hMeets => ?_, hRest.branches⟩
    rcases meets_container_iff.1 hMeets with rfl | ⟨key, v, hEntry, hMeets⟩
    · exact hBranches
    · exact hChildren.branches v (hChild key v hEntry) d hMeets
  · refine List.forall_mem_cons.2 ⟨fun edges w hRoute hScalar => ?_, hRest.ends⟩
    cases hRoute with
    | here => cases hScalar
    | step hEntry hTail => exact hChildren.ends _ (hChild _ _ hEntry) _ _ hTail hScalar

end Grown

end Heap

theorem Builds.grown {scalars : List Value} {h k m : Heap} {values : List Value}
    (hRow : Builds scalars h values k) (hm : k.Extends m) :
    Heap.Grown scalars m h k values := by
  induction hRow with
  | nil h => exact .nil scalars m h
  | scalar hScalar hMem _ ih => exact .scalar hScalar hMem (ih hm)
  | container hChildren hPlaces hRest ihChildren ihRest =>
    have hl := hRest.keeps.trans hm
    have hk := hPlaces.keeps.trans hl
    exact .container (ihChildren hk) hChildren.keeps hPlaces (ihRest hm) hRest.keeps hm

/-! ## Decoded values -/

section Decoded

variable {t : Decoded} {h k m : Heap} {v : Value}

/-- What a decoded value leads to, on any heap that keeps what decoding has made. -/
theorem Decoded.grown (hLoad : t.load h = (v, k)) (hm : k.Extends m) :
    Heap.Grown t.plain.scalars m h k [v] := by
  have hRow := Json.load_builds t.plain h
  rw [← t.load_eq h, hLoad] at hRow
  exact hRow.grown hm

theorem Decoded.keeps (hLoad : t.load h = (v, k)) : h.Extends k := by
  have hRow := Json.load_builds t.plain h
  rw [← t.load_eq h, hLoad] at hRow
  exact hRow.keeps

theorem Decoded.branches (hLoad : t.load h = (v, k)) (hm : k.Extends m) :
    ∀ c, m.Meets v c → m.Branches c :=
  (Decoded.grown hLoad hm).branches v (List.mem_singleton_self v)

theorem Decoded.isAbsent_eq_false (hLoad : t.load h = (v, k)) {edges : List Edge} {w : Value}
    (hRoute : k.Route v edges w) : w.isAbsent = false := by
  have hEnds := (Decoded.grown hLoad (.refl k)).ends v (List.mem_singleton_self v) edges w hRoute
  cases w with
  | absent => exact absurd (hEnds rfl) t.plain.absent_not_mem_scalars
  | null | bool | number | text | container => rfl

end Decoded

/-! ## Searching and writing what was decoded -/

section Consequences

variable {h : Heap} {v : Value} {c d : Container}

theorem Heap.Route.append {v w x : Value} {edges edges' : List Edge} (hRoute : h.Route v edges w)
    (hRest : h.Route w edges' x) : h.Route v (edges ++ edges') x := by
  induction hRoute with
  | here => exact hRest
  | step hEntry _ ih => exact .step hEntry (ih hRest)

/-- Only a container itself is the same container. -/
theorem eq_container_of_beq {w : Value} (hEq : (w == .container d) = true) : w = .container d := by
  cases w with
  | container c => exact congrArg Value.container (eq_of_beq hEq)
  | absent | null | bool | number | text => contradiction

/-- A container that is not met from the root is not found below it by its identity. -/
theorem findByValue_strict_eq_nil (hAway : ¬ h.Meets v d) :
    Search.findByValue h v (.container d) .strict = [] := by
  refine List.eq_nil_iff_forall_not_mem.2 fun path hPath => ?_
  obtain ⟨e, hMem, hAccepted, -⟩ := Search.mem_findByValue_iff.1 hPath
  obtain ⟨hEntry, edges, hRoute, -⟩ := Search.exists_route_of_compared hMem
  -- what is accepted is the container itself, below the root
  have hValue := eq_container_of_beq (Search.judge_strict_iff.1 hAccepted)
  rw [hValue] at hEntry
  have hMeets : h.Meets v d := ⟨_, hRoute.append (.step hEntry (.here _))⟩
  exact hAway hMeets

/-- Where all that is met branches, a text in the tree of a value is a text of the graph, at the
same place. -/
theorem exists_route_of_text (hv : ∀ c, h.Meets v c → h.Branches c) {keys : List Key} {s : String}
    (hAt : (v.toJson h).at? keys = some (.text s)) :
    ∃ edges, h.Route v edges (.text s) ∧ edges.map Edge.key = keys := by
  obtain ⟨edges, w, hRoute, hKeys, -, -, hText⟩ := at?_toJson_iff.1 hAt
  have hDrawn : Drawn h (edges.map Edge.owner) w (.text s) := by
    rw [hText]
    exact drawn_toJson (by simp) w
  cases hDrawn with
  | text s => exact ⟨edges, hRoute, hKeys⟩
  -- a marker would stand for a container that the route has gone through
  | again hMem => exact absurd hMem (Heap.not_mem_owners hv hRoute)

end Consequences

/-- Decoding a text makes a tree of its own. The heap keeps the containers that it has; every
container that the result leads to is new, and exactly one route leads to it; and nothing that the
result leads to is absent. So of two values decoded one after the other, whatever happens to the
heap in between, neither is found in the other by the identity of a container. And a text in the
written tree of the result, be it the one that marks a cycle, is a text of the graph at the same
place, and of the tree that was decoded. -/
theorem decoded_is_fresh_tree (t : Decoded) (h : Heap) {v : Value} {k : Heap}
    (hLoad : t.load h = (v, k)) :
    (h.Extends k ∧ ∀ c ∈ h.containers, k.entries c = h.entries c) ∧
    (∀ c, k.Meets v c →
      c ∈ k.containers ∧ c ∉ h.containers ∧ ∃! edges, k.Route v edges (.container c)) ∧
    (∀ edges w, k.Route v edges w → w.isAbsent = false) ∧
    (∀ (t' : Decoded) (l m : Heap) (w : Value), k.Extends l → t'.load l = (w, m) →
      (w.container?.isSome = true → Search.findByValue m v w .strict = []) ∧
      (v.container?.isSome = true → Search.findByValue m w v .strict = [])) ∧
    ∀ keys s, (v.toJson k).at? keys = some (.text s) →
      (∃ edges, k.Route v edges (.text s) ∧ edges.map Edge.key = keys) ∧
        .text s ∈ t.plain.scalars := by
  have hGrown := Decoded.grown hLoad (.refl k)
  have hBranches := Decoded.branches hLoad (.refl k)
  refine ⟨⟨Decoded.keeps hLoad, fun c hc => (Decoded.keeps hLoad).entries_eq hc⟩, ?_, ?_, ?_, ?_⟩
  · intro c hMeets
    have hMade := hGrown.between v (List.mem_singleton_self v) c hMeets
    obtain ⟨edges, hRoute⟩ := hMeets
    exact ⟨hMade.1, hMade.2, edges, hRoute,
      fun edges' hRoute' => Heap.route_unique hBranches hRoute' hRoute⟩
  · intro edges w hRoute
    exact Decoded.isAbsent_eq_false hLoad hRoute
  · intro t' l m w hl hLoad'
    -- the first value leads to containers made before `l`, the second to containers made after it
    have hBefore : ∀ c, m.Meets v c → c ∈ l.containers := by
      intro c hMeets
      have hm := hl.trans (Decoded.keeps hLoad')
      have hGrown := Decoded.grown hLoad hm
      exact hl.mem (hGrown.between v (List.mem_singleton_self v) c hMeets).1
    have hBehind : ∀ c, m.Meets w c → c ∉ l.containers := by
      intro c hMeets
      have hGrown := Decoded.grown hLoad' (.refl m)
      exact (hGrown.between w (List.mem_singleton_self w) c hMeets).2
    constructor
    · intro hSome
      obtain ⟨d, hd⟩ := Option.isSome_iff_exists.1 hSome
      obtain rfl := Value.container?_eq_some_iff.1 hd
      refine findByValue_strict_eq_nil fun hMeets => ?_
      exact hBehind d (Heap.meets_self m d) (hBefore d hMeets)
    · intro hSome
      obtain ⟨d, hd⟩ := Option.isSome_iff_exists.1 hSome
      obtain rfl := Value.container?_eq_some_iff.1 hd
      refine findByValue_strict_eq_nil fun hMeets => ?_
      exact hBehind d hMeets (hBefore d (Heap.meets_self m d))
  · intro keys s hAt
    obtain ⟨edges, hRoute, hKeys⟩ := exists_route_of_text hBranches hAt
    have hScalar := hGrown.ends v (List.mem_singleton_self v) edges (.text s) hRoute rfl
    exact ⟨⟨edges, hRoute, hKeys⟩, hScalar⟩

/-- A mapping whose two keys have the same text, each with a list in which the marker of a cycle
stands as a text. -/
def collidingTree : Yaml :=
  .mapping [(.text "1", .sequence [.null]),
    (.number (.integer 1), .tagged "!list" (.sequence [.text circularMarker]))]

/-- The heap behind `twiceHeap` with the containers of `collidingTree`. Nothing leads to the first
of its two lists. -/
def collidingHeap : Heap where
  objects := #[.ofList [("x", .number (.integer 1))],
    .ofList [("1", .container (.array 2))]]
  arrays := #[[.container (.object 0), .container (.object 0)], [.null], [.text circularMarker]]

theorem load_collidingTree :
    (Decoded.yaml collidingTree).load twiceHeap = (.container (.object 1), collidingHeap) := by
  rfl

/-- A list decoded behind it, equal by content to the one kept. -/
def targetTree : Json :=
  .array [.text circularMarker]

/-- The heap with both. -/
def targetHeap : Heap where
  objects := collidingHeap.objects
  arrays := collidingHeap.arrays.push [.text circularMarker]

theorem load_targetTree :
    (Decoded.json targetTree).load collidingHeap = (.container (.array 3), targetHeap) := by
  rfl

theorem decoded_is_fresh_tree_colliding :
    (Decoded.yaml collidingTree).load twiceHeap = (.container (.object 1), collidingHeap) ∧
    collidingHeap.Meets (.container (.object 1)) (.array 2) ∧
    .array 2 ∉ twiceHeap.containers ∧
    (∃! edges, collidingHeap.Route (.container (.object 1)) edges (.container (.array 2))) ∧
    Search.findByValue targetHeap (.container (.object 1)) (.container (.array 3)) .strict = [] ∧
    Search.findByValue targetHeap (.container (.array 3)) (.container (.object 1)) .strict = [] ∧
    ((Value.container (.object 1)).toJson collidingHeap).at? [.field "1", .index 0] =
      some (.text circularMarker) ∧
    .text circularMarker ∈ (Decoded.yaml collidingTree).plain.scalars := by
  obtain ⟨-, hContainers, -, hSearches, hTexts⟩ :=
    decoded_is_fresh_tree (.yaml collidingTree) twiceHeap load_collidingTree
  have hMeets : collidingHeap.Meets (.container (.object 1)) (.array 2) :=
    ⟨_, .step (List.mem_of_getElem? (i := 0) rfl) (.here _)⟩
  obtain ⟨-, hNew, hRoute⟩ := hContainers _ hMeets
  obtain ⟨hTarget, hDocument⟩ :=
    hSearches (.json targetTree) collidingHeap _ _ (.refl _) load_targetTree
  have hAt : ((Value.container (.object 1)).toJson collidingHeap).at? [.field "1", .index 0] =
      some (.text circularMarker) := by cbv
  exact ⟨load_collidingTree, hMeets, hNew, hRoute, hTarget rfl, hDocument rfl, hAt,
    (hTexts _ _ hAt).2⟩

end DocGraph
