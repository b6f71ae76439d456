import DocGraph.Proofs.KeyText
import DocGraph.Proofs.RoundTrip

/-!
# DocGraph: what becomes of the entries of a mapping

The entries of a YAML mapping become the fields of an object, named by the texts of their keys.
Where different keys have one text, their entries become one field: it stands where the first of
them stands, and has the value of the last one, so what is below the others is in no graph. Where
the texts are different, nothing is lost and nothing moves. The keys of a mapping are different, so
a text that two of them share is a key spelled like another key, or the keys are sequences, mappings
or tagged nodes.

`Converts` says what a tree becomes, for any rule on which entries are kept, one case for each kind
of tree.

* `Fields.toList_ofList_eq`: which pairs are left of a list of pairs bound one after the other.
* `Yaml.load_converts`: loading keeps one entry for each text, by induction on the tree.
* `converts_labelled_iff`: it keeps all entries exactly if their texts are different.
* `load_keeps_entries`: this, and which keys of a mapping share a text.
-/

namespace DocGraph

/-! ## Pairs bound one after the other -/

namespace Fields

variable {α β : Type}

theorem ofList_append (pairs : List (String × α)) (p : String × α) :
    ofList (pairs ++ [p]) = (ofList pairs).insert p.1 p.2 := by
  rw [ofList, List.foldl_append]
  rfl

theorem get?_ofList (pairs : List (String × α)) (name : String) :
    (ofList pairs).get? name = pairs.reverse.lookup name := by
  induction pairs using List.reverseRecOn with
  | nil => rfl
  | append_singleton pairs p ih =>
    rw [ofList_append, get?_insert, ih, List.reverse_append, List.reverse_singleton,
      List.singleton_append, List.lookup_cons]
    by_cases hName : name = p.1
    · rw [if_pos hName, beq_iff_eq.2 hName]
    · rw [if_neg hName, beq_eq_false_iff_ne.2 hName]

theorem names_ofList (pairs : List (String × α)) :
    (ofList pairs).toList.map Prod.fst = (pairs.map Prod.fst).eraseDups := by
  induction pairs using List.reverseRecOn with
  | nil => rfl
  | append_singleton pairs p ih =>
    rw [ofList_append, List.map_append, List.eraseDups_append, ← ih, List.map_singleton]
    -- a name that is bound already keeps its place, and a new one comes last
    by_cases hName : p.1 ∈ (ofList pairs).toList.map Prod.fst
    · have hBound : p.1 ∈ pairs.map Prod.fst := List.mem_eraseDups.1 (ih ▸ hName)
      rw [toList_insert_of_mem hName, map_fst_replace]
      simp [List.removeAll, hBound]
    · have hNew : p.1 ∉ pairs.map Prod.fst := fun hMem => hName (ih ▸ List.mem_eraseDups.2 hMem)
      rw [toList_insert_of_not_mem hName, List.map_append, List.map_singleton]
      simp [List.removeAll, hNew, List.eraseDups_cons]

/-- Fields are listed by their names. -/
theorem toList_eq (f : Fields α) :
    f.toList = (f.toList.map Prod.fst).filterMap fun name => (f.get? name).map (name, ·) := by
  rw [List.filterMap_map]
  refine Eq.trans List.filterMap_some.symm (List.filterMap_congr fun e he => ?_)
  rw [Function.comp_apply, f.mem_toList_iff_get?.1 he]
  rfl

/-- One pair is left for each name: in the place of the first with this name, with the value of the
last. -/
theorem toList_ofList_eq (pairs : List (String × α)) :
    (ofList pairs).toList = (pairs.map Prod.fst).eraseDups.filterMap fun name =>
      (pairs.reverse.lookup name).map (name, ·) := by
  rw [toList_eq, names_ofList]
  simp only [get?_ofList]

end Fields

/-! ## What a tree is converted to -/

namespace Yaml

/-- The entries of a mapping, named by the texts of their keys. -/
def labelled (entries : List (Yaml × Yaml)) : List (String × Yaml) :=
  entries.map fun (key, t) => (key.keyText, t)

/-- One entry for each text: in the place of the first with this text, with the value of the
last. -/
def merged (entries : List (Yaml × Yaml)) : List (String × Yaml) :=
  ((labelled entries).map Prod.fst).eraseDups.filterMap fun name =>
    ((labelled entries).reverse.lookup name).map (name, ·)

mutual

/-- The mappings of a tree at any depth, those in keys apart. -/
def mappings : Yaml → List (List (Yaml × Yaml))
  | .sequence items => itemMappings items
  | .mapping entries => entries :: valueMappings entries
  | .tagged _ inner => mappings inner
  | _ => []

def itemMappings : List Yaml → List (List (Yaml × Yaml))
  | [] => []
  | t :: rest => mappings t ++ itemMappings rest

def valueMappings : List (Yaml × Yaml) → List (List (Yaml × Yaml))
  | [] => []
  | (_, t) :: rest => mappings t ++ valueMappings rest

end

end Yaml

namespace Heap

/-- The value is what the tree is converted to if `keep` says which entries of a mapping are kept,
by which names and in which order. Tags are dropped. -/
inductive Converts (h : Heap) (keep : List (Yaml × Yaml) → List (String × Yaml)) :
    Value → Yaml → Prop
  | null : Converts h keep .null .null
  | bool (b : Bool) : Converts h keep (.bool b) (.bool b)
  | number (n : Numeral) : Converts h keep (.number (.ofNumeral n)) (.number n)
  | text (s : String) : Converts h keep (.text s) (.text s)
  | tagged {v : Value} {tag : String} {inner : Yaml} : Converts h keep v inner →
      Converts h keep v (.tagged tag inner)
  | sequence {id : Nat} {items : List Yaml} : .array id ∈ h.containers →
      items.length = (h.items id).length →
      (∀ (position : Nat) v t, (h.items id)[position]? = some v → items[position]? = some t →
        Converts h keep v t) →
      Converts h keep (.container (.array id)) (.sequence items)
  | mapping {id : Nat} {entries : List (Yaml × Yaml)} : .object id ∈ h.containers →
      (keep entries).map Prod.fst = (h.fields id).toList.map Prod.fst →
      (∀ (position : Nat) name v name' t, (h.fields id).toList[position]? = some (name, v) →
        (keep entries)[position]? = some (name', t) → Converts h keep v t) →
      Converts h keep (.container (.object id)) (.mapping entries)

section Converts

variable {h k : Heap} {keep : List (Yaml × Yaml) → List (String × Yaml)} {v : Value} {t : Yaml}

/-- What a tree is converted to stays as it is when containers are added. -/
theorem Extends.converts (hk : h.Extends k) (hv : h.Converts keep v t) : k.Converts keep v t := by
  induction hv with
  | null => exact .null
  | bool b => exact .bool b
  | number n => exact .number n
  | text s => exact .text s
  | tagged _ ih => exact .tagged ih
  | sequence hPlaced hLength _ ih =>
    obtain ⟨hPlaced', hItems⟩ := hk.array hPlaced
    refine .sequence hPlaced' (by rw [hItems, hLength]) fun position v t hItem ht => ?_
    rw [hItems] at hItem
    exact ih position v t hItem ht
  | mapping hPlaced hNames _ ih =>
    obtain ⟨hPlaced', hFields⟩ := hk.object hPlaced
    refine .mapping hPlaced' (by rw [hFields, hNames]) fun position name v name' t hField ht => ?_
    rw [hFields] at hField
    exact ih position name v name' t hField ht

theorem converts_newArray {values : List Value} {items : List Yaml}
    (hItems : List.Forall₂ (h.Converts keep) values items) :
    (h.newArray values).2.Converts keep (.container (h.newArray values).1) (.sequence items) := by
  have hNew := items_newArray h values
  obtain ⟨hLength, hGet⟩ := List.forall₂_iff_get.1 hItems
  refine .sequence ?_ (by rw [hNew, hLength]) fun position v t hItem ht => ?_
  · rw [array_mem_containers, newArray, Array.size_push]
    omega
  · rw [hNew] at hItem
    obtain ⟨hn, rfl⟩ := List.getElem?_eq_some_iff.1 hItem
    obtain ⟨hn', rfl⟩ := List.getElem?_eq_some_iff.1 ht
    exact (extends_newArray h values).converts (hGet position hn hn')

theorem converts_newObject {f : Fields Value} {entries : List (Yaml × Yaml)}
    (hFields : List.Forall₂ (fun e m => m.1 = e.1 ∧ h.Converts keep e.2 m.2) f.toList
      (keep entries)) :
    (h.newObject f).2.Converts keep (.container (h.newObject f).1) (.mapping entries) := by
  have hNew := fields_newObject h f
  refine .mapping ?_ (by rw [hNew, names_eq_of_forall₂ hFields]) ?_
  · rw [object_mem_containers, newObject, Array.size_push]
    omega
  · intro position name v name' t hField ht
    rw [hNew] at hField
    obtain ⟨hn, hv⟩ := List.getElem?_eq_some_iff.1 hField
    obtain ⟨hn', ht⟩ := List.getElem?_eq_some_iff.1 ht
    have hPair := (List.forall₂_iff_get.1 hFields).2 position hn hn'
    rw [List.get_eq_getElem, List.get_eq_getElem, hv, ht] at hPair
    exact (extends_newObject h f).converts hPair.2

end Converts

end Heap

/-! ## Loading a tree -/

section Parallel

variable {α β : Type} {R : α → β → Prop} {l : List (String × α)} {m : List (String × β)}

theorem Fields.forall₂_insert {f : Fields α} {g : Fields β} {name : String} {a : α} {b : β}
    (hForall : List.Forall₂ (fun x y => y.1 = x.1 ∧ R x.2 y.2) f.toList g.toList) (hab : R a b) :
    List.Forall₂ (fun x y => y.1 = x.1 ∧ R x.2 y.2) (f.insert name a).toList
      (g.insert name b).toList := by
  have hReplace : ∀ {l : List (String × α)} {m : List (String × β)},
      List.Forall₂ (fun x y => y.1 = x.1 ∧ R x.2 y.2) l m →
      List.Forall₂ (fun x y => y.1 = x.1 ∧ R x.2 y.2) (replace name a l) (replace name b m) := by
    intro l m hForall
    induction hForall with
    | nil => exact .nil
    | @cons x y l m hxy hRest ih =>
      obtain ⟨n, v⟩ := x
      obtain ⟨_, w⟩ := y
      obtain ⟨rfl, hvw⟩ := hxy
      rw [replace, replace]
      split
      · exact .cons ⟨rfl, hab⟩ hRest
      · exact .cons ⟨rfl, hvw⟩ ih
  by_cases hName : name ∈ f.toList.map Prod.fst
  · rw [toList_insert_of_mem hName, toList_insert_of_mem (names_eq_of_forall₂ hForall ▸ hName)]
    exact hReplace hForall
  · rw [toList_insert_of_not_mem hName,
      toList_insert_of_not_mem (names_eq_of_forall₂ hForall ▸ hName)]
    exact List.rel_append hForall (.cons ⟨rfl, hab⟩ .nil)

/-- Pairs side by side stay side by side when they are bound one after the other. -/
theorem Fields.forall₂_ofList
    (hForall : List.Forall₂ (fun x y => y.1 = x.1 ∧ R x.2 y.2) l m) :
    List.Forall₂ (fun x y => y.1 = x.1 ∧ R x.2 y.2) (ofList l).toList (ofList m).toList := by
  have hFold : ∀ (f : Fields α) (g : Fields β),
      List.Forall₂ (fun x y => y.1 = x.1 ∧ R x.2 y.2) f.toList g.toList →
      List.Forall₂ (fun x y => y.1 = x.1 ∧ R x.2 y.2)
        (l.foldl (fun f p => f.insert p.1 p.2) f).toList
        (m.foldl (fun g p => g.insert p.1 p.2) g).toList := by
    induction hForall with
    | nil => exact fun f g hfg => hfg
    | @cons x y l m hxy _ ih =>
      intro f g hfg
      rw [List.foldl_cons, List.foldl_cons, hxy.1]
      exact ih _ _ (forall₂_insert hfg hxy.2)
  exact hFold empty empty .nil

end Parallel

namespace Yaml

theorem merged_eq (entries : List (Yaml × Yaml)) :
    merged entries = (Fields.ofList (labelled entries)).toList :=
  (Fields.toList_ofList_eq _).symm

mutual

/-- Loading keeps one entry for each text. -/
theorem load_converts : ∀ (t : Yaml) (h : Heap),
    h.Extends (t.load h).2 ∧ (t.load h).2.Converts merged (t.load h).1 t
  | .null, h => ⟨.refl h, .null⟩
  | .bool b, h => ⟨.refl h, .bool b⟩
  | .number n, h => ⟨.refl h, .number n⟩
  | .text s, h => ⟨.refl h, .text s⟩
  | .tagged _ inner, h => by
    obtain ⟨hExtends, hConverts⟩ := load_converts inner h
    rw [load]
    exact ⟨hExtends, .tagged hConverts⟩
  | .sequence items, h => by
    obtain ⟨hExtends, hForall⟩ := loadItems_converts items h
    rw [load]
    exact ⟨hExtends.trans (Heap.extends_newArray _ _), Heap.converts_newArray hForall⟩
  | .mapping entries, h => by
    obtain ⟨hExtends, hForall⟩ := loadEntries_converts entries h
    rw [load]
    refine ⟨hExtends.trans (Heap.extends_newObject _ _), Heap.converts_newObject ?_⟩
    rw [merged_eq]
    exact Fields.forall₂_ofList hForall

theorem loadItems_converts : ∀ (items : List Yaml) (h : Heap),
    h.Extends (loadItems h items).2 ∧
      List.Forall₂ ((loadItems h items).2.Converts merged) (loadItems h items).1 items
  | [], h => ⟨.refl h, .nil⟩
  | t :: rest, h => by
    obtain ⟨hExtends, hConverts⟩ := load_converts t h
    obtain ⟨hExtends', hForall⟩ := loadItems_converts rest (t.load h).2
    rw [loadItems]
    exact ⟨hExtends.trans hExtends', .cons (hExtends'.converts hConverts) hForall⟩

theorem loadEntries_converts : ∀ (entries : List (Yaml × Yaml)) (h : Heap),
    h.Extends (loadEntries h entries).2 ∧
      List.Forall₂ (fun e m => m.1 = e.1 ∧ (loadEntries h entries).2.Converts merged e.2 m.2)
        (loadEntries h entries).1 (labelled entries)
  | [], h => ⟨.refl h, .nil⟩
  | (key, t) :: rest, h => by
    obtain ⟨hExtends, hConverts⟩ := load_converts t h
    obtain ⟨hExtends', hForall⟩ := loadEntries_converts rest (t.load h).2
    rw [loadEntries]
    exact ⟨hExtends.trans hExtends', .cons ⟨rfl, hExtends'.converts hConverts⟩ hForall⟩

end

end Yaml

/-! ## Nothing lost -/

section Labelled

open Yaml

variable {h : Heap} {v : Value} {t : Yaml}

theorem names_labelled (entries : List (Yaml × Yaml)) :
    (labelled entries).map Prod.fst = entries.map fun e => e.1.keyText := by
  rw [labelled, List.map_map]
  rfl

/-- Where the texts are different, one entry for each text is all entries. -/
theorem merged_eq_labelled {entries : List (Yaml × Yaml)}
    (hNodup : (entries.map fun e => e.1.keyText).Nodup) : merged entries = labelled entries := by
  rw [merged_eq, Fields.toList_ofList]
  rwa [names_labelled]

theorem mem_itemMappings_iff {items : List Yaml} {entries : List (Yaml × Yaml)} :
    entries ∈ itemMappings items ↔ ∃ t ∈ items, entries ∈ mappings t := by
  induction items with
  | nil => simp [itemMappings]
  | cons t rest ih => simp [itemMappings, ih]

theorem mem_valueMappings_iff {owner entries : List (Yaml × Yaml)} :
    entries ∈ valueMappings owner ↔ ∃ e ∈ owner, entries ∈ mappings e.2 := by
  induction owner with
  | nil => simp [valueMappings]
  | cons e rest ih => simp [valueMappings, ih]

theorem Heap.Converts.labelled_of_nodup (hv : h.Converts merged v t)
    (hNodup : ∀ entries ∈ mappings t, (entries.map fun e => e.1.keyText).Nodup) :
    h.Converts labelled v t := by
  induction hv with
  | null => exact .null
  | bool b => exact .bool b
  | number n => exact .number n
  | text s => exact .text s
  | tagged _ ih =>
    rw [mappings] at hNodup
    exact .tagged (ih hNodup)
  | sequence hPlaced hLength _ ih =>
    rw [mappings] at hNodup
    refine .sequence hPlaced hLength fun position v t hItem ht => ?_
    refine ih position v t hItem ht fun entries hMem => hNodup entries ?_
    exact mem_itemMappings_iff.2 ⟨t, List.mem_of_getElem? ht, hMem⟩
  | mapping hPlaced hNames _ ih =>
    rw [mappings] at hNodup
    obtain ⟨hHere, hBelow⟩ := List.forall_mem_cons.1 hNodup
    have hKept := merged_eq_labelled hHere
    refine .mapping hPlaced (hKept ▸ hNames) fun position name v name' t hField ht => ?_
    refine ih position name v name' t hField (hKept ▸ ht) fun entries hMem => hBelow entries ?_
    obtain ⟨e, he, hEq⟩ := List.mem_map.1 (List.mem_of_getElem? ht)
    cases hEq
    exact mem_valueMappings_iff.2 ⟨e, he, hMem⟩

/-- The fields of an object have different names, so a mapping of which all is kept has too. -/
theorem Heap.Converts.nodup_of_labelled (hv : h.Converts labelled v t) :
    ∀ entries ∈ mappings t, (entries.map fun e => e.1.keyText).Nodup := by
  induction hv with
  | null | bool | number | text => simp [mappings]
  | tagged _ ih =>
    rw [mappings]
    exact ih
  | @sequence id items _ hLength _ ih =>
    intro entries hMem
    rw [mappings] at hMem
    obtain ⟨t, ht, hMem⟩ := mem_itemMappings_iff.1 hMem
    obtain ⟨position, ht⟩ := List.mem_iff_getElem?.1 ht
    obtain ⟨v, hItem⟩ := exists_of_length hLength ht
    exact ih position v t hItem ht entries hMem
  | @mapping id owner _ hNames _ ih =>
    rw [mappings]
    refine List.forall_mem_cons.2 ⟨?_, fun entries hMem => ?_⟩
    · rw [← names_labelled, hNames]
      exact (h.fields id).nodup
    -- a mapping below is below the value of an entry, and all entries are kept
    · obtain ⟨e, he, hMem⟩ := mem_valueMappings_iff.1 hMem
      have hKept : (e.1.keyText, e.2) ∈ labelled owner := List.mem_map_of_mem he
      obtain ⟨position, hKept⟩ := List.mem_iff_getElem?.1 hKept
      have hLength : (labelled owner).length = (h.fields id).toList.length := by
        simpa using congrArg List.length hNames
      obtain ⟨⟨name, v⟩, hField⟩ := exists_of_length hLength hKept
      exact ih position name v _ _ hField hKept entries hMem

theorem converts_labelled_iff (t : Yaml) (h : Heap) :
    (t.load h).2.Converts labelled (t.load h).1 t ↔
      ∀ entries ∈ mappings t, (entries.map fun e => e.1.keyText).Nodup :=
  ⟨Heap.Converts.nodup_of_labelled, (load_converts t h).2.labelled_of_nodup⟩

/-- Different keys share a text only if just one of them is a text, or each of them is a sequence, a
mapping or a tagged node. -/
theorem pairwise_of_distinct {entries : List (Yaml × Yaml)}
    (hDistinct : distinct (entries.map Prod.fst) = true) :
    entries.Pairwise fun e e' => e.1.keyText = e'.1.keyText →
      e.1.isText ≠ e'.1.isText ∨ e.1.isNested = true ∧ e'.1.isNested = true := by
  induction entries with
  | nil => exact .nil
  | cons e rest ih =>
    rw [List.map_cons, distinct, Bool.and_eq_true, Bool.not_eq_true',
      List.any_eq_false] at hDistinct
    obtain ⟨hFirst, hRest⟩ := hDistinct
    refine .cons (fun e' he' hText => ?_) (ih hRest)
    refine (keyText_eq_cases hText).resolve_left fun hSame => ?_
    exact hFirst e'.1 (List.mem_map_of_mem he') hSame

end Labelled

/-- Loading a YAML tree keeps one entry of a mapping for each text of its keys, at every depth:
fields stand in the order in which their texts come first, and each has what the value of the last
entry with its text is converted to. So an object has all entries of its mapping, in order and each
with what its own value is converted to, exactly if no two keys share a text, for all mappings of
the tree together. Of different keys this is so unless one of them is a text spelled like another
key, or two are sequences, mappings or tagged nodes. -/
theorem load_keeps_entries (h : Heap) (t : Yaml) :
    (t.load h).2.Converts Yaml.merged (t.load h).1 t ∧
    ((t.load h).2.Converts Yaml.labelled (t.load h).1 t ↔
      ∀ entries ∈ t.mappings, (entries.map fun e => e.1.keyText).Nodup) ∧
    ∀ entries : List (Yaml × Yaml), Yaml.distinct (entries.map Prod.fst) = true →
      entries.Pairwise fun e e' => e.1.keyText = e'.1.keyText →
        e.1.isText ≠ e'.1.isText ∨ e.1.isNested = true ∧ e'.1.isNested = true :=
  ⟨(Yaml.load_converts t h).2, converts_labelled_iff t h, fun _ => pairwise_of_distinct⟩

/-- A number and the text of its digit as keys. -/
def digitKeys : Yaml :=
  .mapping [(.number (.integer 1), .text "a"), (.text "1", .text "b")]

/-- Two entries with different keys, and one field. -/
theorem digitKeys_merge :
    Yaml.distinct [.number (.integer 1), .text "1"] = true ∧
    digitKeys.load .empty =
      (.container (.object 0), ⟨#[.ofList [("1", .text "b")]], #[]⟩) ∧
    ¬ (digitKeys.load .empty).2.Converts Yaml.labelled (digitKeys.load .empty).1 digitKeys := by
  refine ⟨by decide, ?_, fun hConverts => ?_⟩
  · cbv
  · have hNodup := hConverts.nodup_of_labelled _ List.mem_cons_self
    revert hNodup
    decide

end DocGraph
