import DocGraph.File.Load
import DocGraph.Proofs.Reading

/-!
# DocGraph: files and the standard input agree

A file tells by its name whether it is compressed and which format it has; the standard input must
tell by its first bytes and by trial. For JSON the two come to the same. Compressed data begins with
two bytes that begin no text, as the second of them is never the first byte of a character, so the
bytes themselves tell which of the two they are. And a text that is JSON is taken for JSON.

The same text is then decoded twice, into containers of its own each time. The two values are equal
by content: to stand for one tree is a relation that holds of values alike, children included, as
long as no scalar of the tree is NaN.

* `stands_array`, `stands_object`: what stands for a container of a tree.
* `bisimulation_twins`: values that stand for one tree are equal by content.
* `magic_not_prefix`: no text begins like compressed data.
* `decodeInput_of_read`: what can be read from a file can be read from the standard input.
* `loadInput_agrees`: the two ways of loading agree.
-/

namespace DocGraph

/-! ## Values that stand for one tree -/

/-- The value has been made by loading the tree, on a heap that has grown since. -/
def Json.Stands (m : Heap) (t : Json) (v : Value) : Prop :=
  ∃ h, (t.load h).1 = v ∧ (t.load h).2.Extends m

/-- The two values stand for one tree, of which no scalar is NaN. -/
def Heap.Twins (m : Heap) (v w : Value) : Prop :=
  ∃ t : Json, (t.Holds fun v => (v == v) = true) ∧ t.Stands m v ∧ t.Stands m w

section Stands

variable {m : Heap} {v : Value}

theorem stands_of_load {t : Json} {h k : Heap} (hv : t.load h = (v, k)) (hm : k.Extends m) :
    t.Stands m v := by
  refine ⟨h, ?_⟩
  rw [hv]
  exact ⟨rfl, hm⟩

theorem stands_items {items : List Json} {h : Heap}
    (hm : (Json.loadItems h items).2.Extends m) :
    List.Forall₂ (Json.Stands m) items (Json.loadItems h items).1 := by
  induction items generalizing h with
  | nil => exact .nil
  | cons t items ih =>
    have hKeeps := (Json.loadItems_builds items (t.load h).2).keeps
    exact .cons ⟨h, rfl, hKeeps.trans hm⟩ (ih hm)

theorem stands_members {members : List (String × Json)} {h : Heap}
    (hm : (Json.loadMembers h members).2.Extends m) :
    List.Forall₂ (fun a b => b.1 = a.1 ∧ a.2.Stands m b.2) members
      (Json.loadMembers h members).1 := by
  induction members generalizing h with
  | nil => exact .nil
  | cons member members ih =>
    have hKeeps := (Json.loadMembers_builds members (member.2.load h).2).keeps
    exact .cons ⟨rfl, h, rfl, hKeeps.trans hm⟩ (ih hm)

/-- An array of a tree stands as an array whose elements stand for the items. -/
theorem stands_array {items : List Json} (hv : (Json.array items).Stands m v) :
    ∃ id, v = .container (.array id) ∧ List.Forall₂ (Json.Stands m) items (m.items id) := by
  obtain ⟨h, rfl, hm⟩ := hv
  rw [Json.load] at hm ⊢
  have hPlaces := Heap.places_newArray (Json.loadItems h items).2 (Json.loadItems h items).1
  have hItems := (hm.array hPlaces.placed).2
  refine ⟨_, rfl, ?_⟩
  rw [hItems, Heap.items_newArray]
  exact stands_items (hPlaces.keeps.trans hm)

/-- An object of a tree stands as an object that binds the names of the members, one after the
other, to what stands for them. -/
theorem stands_object {members : List (String × Json)} (hv : (Json.object members).Stands m v) :
    ∃ id pairs, v = .container (.object id) ∧ m.fields id = .ofList pairs ∧
      List.Forall₂ (fun a b => b.1 = a.1 ∧ a.2.Stands m b.2) members pairs := by
  obtain ⟨h, rfl, hm⟩ := hv
  rw [Json.load] at hm ⊢
  have hPlaces := Heap.places_newObject (Json.loadMembers h members).2
    (Json.loadMembers h members).1
  have hFields := (hm.object hPlaces.placed).2
  refine ⟨_, _, rfl, ?_, stands_members (hPlaces.keeps.trans hm)⟩
  rw [hFields, Heap.fields_newObject]

end Stands

section SideBySide

variable {α β γ : Type} {R : α → β → Prop} {S : α → γ → Prop} {T : β → γ → Prop}

/-- Two lists beside a third one are beside each other. -/
theorem forall₂_of_common (hT : ∀ a b c, R a b → S a c → T b c) {l : List α} {m : List β}
    {n : List γ} (hR : List.Forall₂ R l m) (hS : List.Forall₂ S l n) : List.Forall₂ T m n := by
  induction hR generalizing n with
  | nil =>
    cases hS
    exact .nil
  | cons hHead _ ih =>
    cases hS with
    | cons hHead' hTail' => exact .cons (hT _ _ _ hHead hHead') (ih hTail')

/-- Binding the same names to related values makes related fields. -/
theorem rel_ofList {l : List (String × β)} {m : List (String × γ)}
    (hPairs : List.Forall₂ (fun a b => a.1 = b.1 ∧ T a.2 b.2) l m) (name : String) :
    Option.Rel T ((Fields.ofList l).get? name) ((Fields.ofList m).get? name) := by
  have hFold : ∀ (f : Fields β) (g : Fields γ),
      (∀ name, Option.Rel T (f.get? name) (g.get? name)) →
        Option.Rel T ((l.foldl (fun f p => f.insert p.1 p.2) f).get? name)
          ((m.foldl (fun f p => f.insert p.1 p.2) g).get? name) := by
    induction hPairs with
    | nil =>
      intro f g hFields
      exact hFields name
    | @cons a b l m hHead _ ih =>
      intro f g hFields
      obtain ⟨hName, hValue⟩ := hHead
      refine ih _ _ fun other => ?_
      rw [Fields.get?_insert, Fields.get?_insert, hName]
      split
      · exact .some hValue
      · exact hFields other
  exact hFold .empty .empty fun _ => .none

end SideBySide

theorem bisimulation_twins (m : Heap) : Search.Bisimulation m m.Twins := by
  rintro v w ⟨t, hHolds, hv, hw⟩
  cases t with
  | null =>
    obtain ⟨_, rfl, -⟩ := hv
    obtain ⟨_, rfl, -⟩ := hw
    rfl
  | bool b =>
    obtain ⟨_, rfl, -⟩ := hv
    obtain ⟨_, rfl, -⟩ := hw
    exact beq_self_eq_true b
  | number n =>
    obtain ⟨_, rfl, -⟩ := hv
    obtain ⟨_, rfl, -⟩ := hw
    exact hHolds _ (List.mem_singleton_self _)
  | text s =>
    obtain ⟨_, rfl, -⟩ := hv
    obtain ⟨_, rfl, -⟩ := hw
    exact beq_self_eq_true s
  | array items =>
    obtain ⟨a, rfl, hItems⟩ := stands_array hv
    obtain ⟨b, rfl, hItems'⟩ := stands_array hw
    have hBoth := (List.forall₂_and_left _ _).2 ⟨Json.holds_array_iff.1 hHolds, hItems⟩
    refine .inr (forall₂_of_common (fun t v w hv hw => ?_) hBoth hItems')
    exact ⟨t, hv.1, hv.2, hw⟩
  | object members =>
    obtain ⟨a, pairs, rfl, hFields, hPairs⟩ := stands_object hv
    obtain ⟨b, pairs', rfl, hFields', hPairs'⟩ := stands_object hw
    have hBoth := (List.forall₂_and_left _ _).2 ⟨Json.holds_object_iff.1 hHolds, hPairs⟩
    have hTwins : List.Forall₂ (fun a b => a.1 = b.1 ∧ m.Twins a.2 b.2) pairs pairs' :=
      forall₂_of_common (fun t a b ha hb => ⟨ha.2.1.trans hb.1.symm, t.2, ha.1, ha.2.2, hb.2⟩)
        hBoth hPairs'
    have hRel := rel_ofList hTwins
    rw [← hFields, ← hFields'] at hRel
    refine .inr ⟨fun name => ?_, fun name v w hv hw => ?_⟩
    · have hName := hRel name
      unfold Fields.contains
      generalize (m.fields a).get? name = found, (m.fields b).get? name = found' at hName
      cases hName <;> rfl
    · have hName := hRel name
      rw [hv, hw] at hName
      cases hName with
      | some hTwins => exact hTwins

/-- Loading a tree twice makes values that are equal by content, unless the tree holds a NaN. -/
theorem structuralEq_of_load {t : Json} (ht : t.Holds fun v => (v == v) = true) {h l k m : Heap}
    {v w : Value} (hv : t.load h = (v, k)) (hw : t.load l = (w, m)) {x : Heap}
    (hk : k.Extends x) (hm : m.Extends x) : Search.structuralEq x v w = true := by
  refine Search.isSome_agree (bisimulation_twins x) [] [(v, w)] fun p hp => ?_
  rw [List.mem_singleton.1 hp]
  exact ⟨t, ht, stands_of_load hv hk, stands_of_load hw hm⟩

/-! ## Compressed data and texts -/

/-- What is decompressed begins with the two bytes. -/
theorem Gzip.magic_isPrefixOf {bytes data : List UInt8} (hData : decompress? bytes = some data) :
    magic.isPrefixOf bytes = true := by
  obtain ⟨body, hBody, -⟩ := Option.bind_eq_some_iff.1 hData
  unfold afterHeader? at hBody
  split at hBody
  · rfl
  · contradiction

/-- A character is one byte below 128, or begins with a byte from 192 on. -/
theorem utf8EncodeChar_eq (c : Char) : ∃ first rest, String.utf8EncodeChar c = first :: rest ∧
    (first.toNat < 0x80 ∧ rest = [] ∨ 0xc0 ≤ first.toNat) := by
  unfold String.utf8EncodeChar
  dsimp only
  split
  · refine ⟨_, _, rfl, .inl ⟨?_, rfl⟩⟩
    rw [UInt8.toNat_ofNat']
    omega
  · split
    · refine ⟨_, _, rfl, .inr ?_⟩
      rw [UInt8.toNat_ofNat']
      omega
    · split
      · refine ⟨_, _, rfl, .inr ?_⟩
        rw [UInt8.toNat_ofNat']
        omega
      · refine ⟨_, _, rfl, .inr ?_⟩
        rw [UInt8.toNat_ofNat']
        omega

/-- No text begins like compressed data. The first of the two bytes would have to be a character
of its own, and the second one begins no character. -/
theorem magic_not_prefix (cs : List Char) : ¬ Gzip.magic <+: cs.flatMap String.utf8EncodeChar := by
  rintro ⟨rest, hBytes⟩
  cases cs with
  | nil => contradiction
  | cons c cs =>
    obtain ⟨first, more, hChar, hFirst⟩ := utf8EncodeChar_eq c
    rw [List.flatMap_cons, hChar] at hBytes
    obtain ⟨hByte, hRest⟩ := List.cons.inj hBytes
    have hValue : first.toNat = 0x1f := by
      rw [← hByte]
      rfl
    rcases hFirst with ⟨-, rfl⟩ | hLarge
    · -- the second byte is the first one of the next character
      cases cs with
      | nil => contradiction
      | cons d cs =>
        obtain ⟨second, more', hChar', hSecond⟩ := utf8EncodeChar_eq d
        rw [List.flatMap_cons, hChar'] at hRest
        have hValue' : second.toNat = 0x8b := by
          rw [← (List.cons.inj hRest).1]
          rfl
        omega
    · omega

/-- The bytes of a text. -/
def utf8Bytes (text : String) : List UInt8 :=
  text.toUTF8.data.toList

theorem ofBytes?_utf8Bytes (text : String) : Text.ofBytes? (utf8Bytes text) = some text := by
  unfold Text.ofBytes? utf8Bytes String.fromUTF8?
  have hValid : (⟨text.toUTF8.data.toList.toArray⟩ : ByteArray).IsValidUTF8 := text.isValidUTF8
  rw [dif_pos hValid]
  rfl

theorem eq_utf8Bytes {bytes : List UInt8} {text : String}
    (hText : Text.ofBytes? bytes = some text) : bytes = utf8Bytes text := by
  unfold Text.ofBytes? String.fromUTF8? at hText
  split at hText
  · cases hText
    rfl
  · contradiction

theorem magic_isPrefixOf_utf8Bytes (text : String) :
    Gzip.magic.isPrefixOf (utf8Bytes text) = false := by
  have hBytes : utf8Bytes text = text.toList.flatMap String.utf8EncodeChar := by
    unfold utf8Bytes
    rw [String.toUTF8_eq_toByteArray, ← String.ofList_toList (s := text),
      String.toByteArray_ofList, String.toList_ofList, List.utf8Encode, List.toList_data_toByteArray]
  rw [hBytes, Bool.eq_false_iff]
  intro hPrefix
  exact magic_not_prefix _ (List.isPrefixOf_iff_prefix.1 hPrefix)

/-! ## The two ways of loading -/

/-- What is loaded from a text of a file is a tree decoded. -/
theorem exists_load_of_loadText {h k : Heap} {name text : String} {v : Value}
    (hText : loadText h name text = .ok (v, k)) : ∃ t : Decoded, t.load h = (v, k) := by
  unfold loadText at hText
  cases hParse : parseDocument h (FileName.format name) text with
  | error e =>
    rw [hParse] at hText
    contradiction
  | ok result =>
    rw [hParse] at hText
    cases hText
    exact exists_load_of_parseDocument hParse

/-- What is loaded from the standard input is a tree decoded. -/
theorem exists_load_of_loadInput {h k : Heap} {bytes : List UInt8} {v : Value}
    (hInput : loadInput h bytes = .ok (v, k)) : ∃ t : Decoded, t.load h = (v, k) := by
  unfold loadInput at hInput
  cases hBytes : decodeInput bytes with
  | error e =>
    rw [hBytes] at hInput
    contradiction
  | ok text =>
    rw [hBytes] at hInput
    have hEither : loadEither h text = .ok (v, k) := hInput
    unfold loadEither at hEither
    cases hJson : parseJson h text with
    | ok result =>
      rw [hJson] at hEither
      cases hEither
      have hParse : parseDocument h .json text = .ok (v, k) := hJson
      exact exists_load_of_parseDocument hParse
    | error e =>
      cases hYaml : parseYaml h text with
      | ok result =>
        rw [hJson, hYaml] at hEither
        cases hEither
        have hParse : parseDocument h .yaml text = .ok (v, k) := hYaml
        exact exists_load_of_parseDocument hParse
      | error e =>
        rw [hJson, hYaml] at hEither
        contradiction

/-- A text given on the standard input is taken as it is. -/
theorem decodeInput_utf8Bytes (text : String) : decodeInput (utf8Bytes text) = .ok text := by
  have hPlain : ¬ Gzip.magic.isPrefixOf (utf8Bytes text) = true := by
    rw [magic_isPrefixOf_utf8Bytes]
    exact Bool.false_ne_true
  rw [decodeInput, if_neg hPlain, ofBytes?_utf8Bytes]
  rfl

/-- A text in a file is taken as it is, unless the name says that it is compressed. -/
theorem read_utf8Bytes {name : String} (hName : FileName.isGzipped name = false) (text : String) :
    (FileEntry.file (utf8Bytes text)).read name = .ok text := by
  unfold FileEntry.read
  rw [hName, if_neg Bool.false_ne_true]
  dsimp only
  rw [ofBytes?_utf8Bytes]
  rfl

/-- What can be read from a file can be read from the standard input. -/
theorem decodeInput_of_read {name text : String} {bytes : List UInt8}
    (hRead : (FileEntry.file bytes).read name = .ok text) : decodeInput bytes = .ok text := by
  unfold FileEntry.read at hRead
  dsimp only at hRead
  split at hRead
  · -- the name says that it is compressed, and it begins so
    cases hText : Gzip.text? bytes with
    | none =>
      rw [hText] at hRead
      contradiction
    | some found =>
      obtain ⟨data, hData, -⟩ := Option.bind_eq_some_iff.1 hText
      rw [decodeInput, if_pos (Gzip.magic_isPrefixOf hData)]
      rw [hText] at hRead ⊢
      exact hRead
  · cases hText : Text.ofBytes? bytes with
    | none =>
      rw [hText] at hRead
      contradiction
    | some found =>
      rw [hText] at hRead
      cases hRead
      rw [eq_utf8Bytes hText]
      exact decodeInput_utf8Bytes text

/-- A document that a name tells to be JSON is a tree read from JSON, whose scalars are equal to
themselves. The same bytes on the standard input are this tree too. -/
theorem exists_tree_of_loadFile {name : String} {bytes : List UInt8} {h k : Heap} {v : Value}
    (hFormat : FileName.format name = .json)
    (hFile : loadFile h name (.file bytes) = .ok (v, k)) :
    ∃ t : Json, (t.Holds fun v => (v == v) = true) ∧ t.load h = (v, k) ∧
      ∀ l, loadInput l bytes = .ok (t.load l) := by
  unfold loadFile at hFile
  cases hRead : (FileEntry.file bytes).read name with
  | error e =>
    rw [hRead] at hFile
    contradiction
  | ok text =>
    rw [hRead] at hFile
    have hParse : (parseJson h text).mapError LoadError.malformed = .ok (v, k) := by
      have hText : loadText h name text = .ok (v, k) := hFile
      rw [loadText, hFormat] at hText
      exact hText
    cases hTree : Json.parse? text with
    | none =>
      rw [parseJson, hTree] at hParse
      contradiction
    | some t =>
      rw [parseJson, hTree] at hParse
      refine ⟨t, Json.parse?_beq_self hTree, Except.ok.inj hParse, fun l => ?_⟩
      rw [loadInput, decodeInput_of_read hRead]
      show loadEither l text = .ok (t.load l)
      rw [loadEither, parseJson, hTree]

/-- What is loaded from a file whose name tells that it is JSON is loaded from the standard input
too. On every heap that has the containers of both, the two values are equal by content. And a text
is never taken for compressed data. -/
theorem loadInput_agrees :
    (∀ (name : String) (bytes : List UInt8) (h : Heap) (v : Value) (k : Heap),
      FileName.format name = .json → loadFile h name (.file bytes) = .ok (v, k) →
        ∀ l, ∃ w m, loadInput l bytes = .ok (w, m) ∧
          ∀ x, k.Extends x → m.Extends x →
            Search.structuralEq x v w = true ∧ Search.structuralEq x w v = true) ∧
    ∀ text : String, Gzip.magic.isPrefixOf (utf8Bytes text) = false ∧
      decodeInput (utf8Bytes text) = .ok text := by
  constructor
  · intro name bytes h v k hFormat hFile l
    obtain ⟨t, hSelf, hTree, hInput⟩ := exists_tree_of_loadFile hFormat hFile
    refine ⟨_, _, hInput l, fun x hk hm => ⟨?_, ?_⟩⟩
    · exact structuralEq_of_load hSelf hTree rfl hk hm
    · exact structuralEq_of_load hSelf rfl hTree hm hk
  · intro text
    exact ⟨magic_isPrefixOf_utf8Bytes text, decodeInput_utf8Bytes text⟩

/-- The text `[1]`, stored in a member. -/
def storedMember : List UInt8 :=
  [0x1f, 0x8b, 8, 0, 0, 0, 0, 0, 0, 3, 1, 3, 0, 0xfc, 0xff, 91, 49, 93, 0xb8, 0x32, 0x2f, 0x4c,
    3, 0, 0, 0]

def storedHeap : Heap where
  objects := #[]
  arrays := #[[.number (.integer 1)]]

theorem text?_storedMember : Gzip.text? storedMember = some "[1]" := by
  have hData : Gzip.decompress? storedMember = some [91, 49, 93] := by decide +kernel
  have hBytes : utf8Bytes "[1]" = [91, 49, 93] := by decide
  rw [Gzip.text?, hData, ← hBytes]
  exact ofBytes?_utf8Bytes _

theorem loadFile_storedMember : loadFile .empty "a.json.gz" (.file storedMember) =
    .ok (.container (.array 0), storedHeap) := by
  have hName : FileName.isGzipped "a.json.gz" = true := by decide
  have hFormat : FileName.format "a.json.gz" = .json := by decide
  have hParse : Json.parse? "[1]" = some (.array [.number (.integer 1)]) := by cbv
  rw [loadFile, FileEntry.read, if_pos hName, text?_storedMember]
  show loadText .empty "a.json.gz" "[1]" = _
  rw [loadText, hFormat, parseDocument, parseJson, hParse]
  rfl

theorem loadInput_agrees_compressed :
    loadFile .empty "a.json.gz" (.file storedMember) = .ok (.container (.array 0), storedHeap) ∧
    ∃ w m, loadInput storedHeap storedMember = .ok (w, m) ∧ storedHeap.Extends m ∧
      Search.structuralEq m (.container (.array 0)) w = true := by
  refine ⟨loadFile_storedMember, ?_⟩
  have hFormat : FileName.format "a.json.gz" = .json := by decide
  obtain ⟨w, m, hInput, hAlike⟩ :=
    loadInput_agrees.1 _ _ _ _ _ hFormat loadFile_storedMember storedHeap
  obtain ⟨t, hTree⟩ := exists_load_of_loadInput hInput
  have hKeeps := Decoded.keeps hTree
  exact ⟨w, m, hInput, hKeeps, (hAlike m hKeeps (.refl m)).1⟩

end DocGraph
