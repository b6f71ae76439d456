import DocGraph.Proofs.Entries
import DocGraph.Proofs.Equality
import DocGraph.Proofs.Loading

/-!
# DocGraph: one document in two formats

A JSON tree can be told in YAML: node for node, with text keys for the names of members, and with tags
around any of its values. Loading drops the tags, so both are loaded alike, step by step: from one heap
on they make the same containers and the same value. Loaded one beside the other they make copies. The
two lead over the same keys in the same order to the same scalars, whole numbers staying whole or
becoming doubles in both, and they are equal by content if no number is NaN, as none in JSON is.

* `InYaml.plain_eq`: without its tags the YAML tree is the JSON tree, by induction along both.
* `copies_of_stands`: values that stand for one tree are copies, by induction on the tree.
* `load_inYaml_agrees`: the two ways of loading agree.
-/

namespace DocGraph

/-! ## JSON trees told in YAML -/

mutual

/-- The YAML tree has the nodes of the JSON tree, in tags or not. -/
inductive Json.InYaml : Json → Yaml → Prop
  | null : InYaml .null .null
  | bool (b : Bool) : InYaml (.bool b) (.bool b)
  | number (n : Numeral) : InYaml (.number n) (.number n)
  | text (s : String) : InYaml (.text s) (.text s)
  | array {items : List Json} {nodes : List Yaml} : ItemsInYaml items nodes →
      InYaml (.array items) (.sequence nodes)
  | object {members : List (String × Json)} {entries : List (Yaml × Yaml)} :
      MembersInYaml members entries → InYaml (.object members) (.mapping entries)
  | tagged (tag : String) {t : Json} {y : Yaml} : InYaml t y → InYaml t (.tagged tag y)

/-- The items of an array, one after the other. -/
inductive Json.ItemsInYaml : List Json → List Yaml → Prop
  | nil : ItemsInYaml [] []
  | cons {t : Json} {y : Yaml} {items : List Json} {nodes : List Yaml} : InYaml t y →
      ItemsInYaml items nodes → ItemsInYaml (t :: items) (y :: nodes)

/-- The members of an object, one after the other, their names being text keys without tags. -/
inductive Json.MembersInYaml : List (String × Json) → List (Yaml × Yaml) → Prop
  | nil : MembersInYaml [] []
  | cons (name : String) {t : Json} {y : Yaml} {members : List (String × Json)}
      {entries : List (Yaml × Yaml)} : InYaml t y → MembersInYaml members entries →
      MembersInYaml ((name, t) :: members) ((.text name, y) :: entries)

end

mutual

/-- Without its tags the YAML tree is the JSON tree. -/
theorem Json.InYaml.plain_eq : ∀ {y : Yaml} {t : Json}, t.InYaml y → y.plain = t
  | .null, _, .null => rfl
  | .bool _, _, .bool _ => rfl
  | .number _, _, .number _ => rfl
  | .text _, _, .text _ => rfl
  | .sequence _, _, .array hItems => by
    rw [Yaml.plain, hItems.plain_eq]
  | .mapping _, _, .object hMembers => by
    rw [Yaml.plain, hMembers.plain_eq]
  | .tagged _ _, _, .tagged _ hInner => by
    rw [Yaml.plain, hInner.plain_eq]

theorem Json.ItemsInYaml.plain_eq :
    ∀ {nodes : List Yaml} {items : List Json}, Json.ItemsInYaml items nodes →
      Yaml.plainItems nodes = items
  | [], _, .nil => rfl
  | _ :: _, _, .cons hHead hTail => by
    rw [Yaml.plainItems, hHead.plain_eq, hTail.plain_eq]

theorem Json.MembersInYaml.plain_eq :
    ∀ {entries : List (Yaml × Yaml)} {members : List (String × Json)},
      Json.MembersInYaml members entries → Yaml.plainEntries entries = members
  | [], _, .nil => rfl
  | _ :: _, _, .cons name hHead hTail => by
    rw [Yaml.plainEntries, hHead.plain_eq, hTail.plain_eq, Yaml.keyText]

end

/-! ## Copies -/

/-- Nothing tells the two values apart but which containers they are: they are one scalar, or two
containers of one kind with the same keys in the same order and copies under each key. -/
inductive Heap.Copies (h : Heap) : Value → Value → Prop
  | scalar {v : Value} : v.container? = none → Copies h v v
  | array {a b : Nat} : (h.items a).length = (h.items b).length →
      (∀ (position : Nat) v w, (h.items a)[position]? = some v → (h.items b)[position]? = some w →
        Copies h v w) →
      Copies h (.container (.array a)) (.container (.array b))
  | object {a b : Nat} : (h.fields a).toList.map Prod.fst = (h.fields b).toList.map Prod.fst →
      (∀ name v w, (name, v) ∈ (h.fields a).toList → (name, w) ∈ (h.fields b).toList →
        Copies h v w) →
      Copies h (.container (.object a)) (.container (.object b))

/-- Values that stand for one tree are copies. -/
theorem copies_of_stands {m : Heap} (t : Json) {v w : Value} (hv : t.Stands m v)
    (hw : t.Stands m w) : m.Copies v w := by
  match t with
  | .null =>
    obtain ⟨_, rfl, -⟩ := hv
    obtain ⟨_, rfl, -⟩ := hw
    exact .scalar rfl
  | .bool b =>
    obtain ⟨_, rfl, -⟩ := hv
    obtain ⟨_, rfl, -⟩ := hw
    exact .scalar rfl
  | .number n =>
    obtain ⟨_, rfl, -⟩ := hv
    obtain ⟨_, rfl, -⟩ := hw
    exact .scalar rfl
  | .text s =>
    obtain ⟨_, rfl, -⟩ := hv
    obtain ⟨_, rfl, -⟩ := hw
    exact .scalar rfl
  | .array items =>
    have hItem : ∀ t ∈ items, ∀ v w, t.Stands m v → t.Stands m w → m.Copies v w :=
      fun t ht v w hv hw => copies_of_stands t hv hw
    -- the elements on either side stand for the same items, one by one
    obtain ⟨a, rfl, hItems⟩ := stands_array hv
    obtain ⟨b, rfl, hItems'⟩ := stands_array hw
    have hBoth := (List.forall₂_and_left _ _).2 ⟨hItem, hItems⟩
    have hCopies : List.Forall₂ m.Copies (m.items a) (m.items b) :=
      forall₂_of_common (fun t v w hv hw => hv.1 v w hv.2 hw) hBoth hItems'
    obtain ⟨hLength, hGet⟩ := List.forall₂_iff_get.1 hCopies
    refine .array hLength fun position v w hGetV hGetW => ?_
    obtain ⟨hn, rfl⟩ := List.getElem?_eq_some_iff.1 hGetV
    obtain ⟨hn', rfl⟩ := List.getElem?_eq_some_iff.1 hGetW
    exact hGet position hn hn'
  | .object members =>
    have hMember : ∀ e ∈ members, ∀ v w, e.2.Stands m v → e.2.Stands m w → m.Copies v w :=
      fun e he v w hv hw => copies_of_stands e.2 hv hw
    obtain ⟨a, pairs, rfl, hFields, hPairs⟩ := stands_object hv
    obtain ⟨b, pairs', rfl, hFields', hPairs'⟩ := stands_object hw
    have hBoth := (List.forall₂_and_left _ _).2 ⟨hMember, hPairs⟩
    have hCopies : List.Forall₂ (fun a b => b.1 = a.1 ∧ m.Copies a.2 b.2) pairs pairs' :=
      forall₂_of_common
        (fun e a b ha hb => ⟨hb.1.trans ha.2.1.symm, ha.1 a.2 b.2 ha.2.2 hb.2⟩) hBoth hPairs'
    -- names that come twice are dropped from both lists alike
    have hLists := Fields.forall₂_ofList hCopies
    rw [← hFields, ← hFields'] at hLists
    refine .object (names_eq_of_forall₂ hLists).symm fun name v w hMem hMem' => ?_
    exact rel_of_forall₂ hLists (m.fields b).nodup hMem hMem'
termination_by sizeOf t
decreasing_by
  -- an item of an array
  · have hSmaller := List.sizeOf_lt_of_mem ht
    simp only [Json.array.sizeOf_spec]
    omega
  -- a member of an object
  · have hSmaller := List.sizeOf_lt_of_mem he
    obtain ⟨name, t⟩ := e
    simp only [Json.object.sizeOf_spec, Prod.mk.sizeOf_spec] at hSmaller ⊢
    omega

/-! ## The two ways of loading -/

/-- A JSON tree and a YAML tree that tells it, tags or not, are loaded alike: from one heap on they make
the same value and the same containers. On any heap that has the containers of both, wherever each was
loaded, the two values are copies, with the same keys in the same order and numbers of the same kinds,
and if no scalar of the tree is NaN they are equal by content. -/
theorem load_inYaml_agrees {t : Json} {y : Yaml} (hy : t.InYaml y) :
    (∀ h, y.load h = t.load h) ∧
      ∀ (h k l m x : Heap) (v w : Value), t.load h = (v, k) → y.load l = (w, m) →
        k.Extends x → m.Extends x →
          x.Copies v w ∧ ((∀ s ∈ t.scalars, s.isNaN = false) →
            Search.structuralEq x v w = true ∧ Search.structuralEq x w v = true) := by
  have hLoad : ∀ h, y.load h = t.load h := by
    intro h
    rw [Yaml.load_eq, hy.plain_eq]
  refine ⟨hLoad, fun h k l m x v w hv hw hk hm => ?_⟩
  rw [hLoad] at hw
  constructor
  · exact copies_of_stands t (stands_of_load hv hk) (stands_of_load hw hm)
  · intro hNumbers
    -- only a NaN would be told apart from itself
    have hSelf : t.Holds fun s => (s == s) = true := by
      intro s hs
      rw [Value.beq_self, hNumbers s hs]
      rfl
    exact ⟨structuralEq_of_load hSelf hv hw hk hm, structuralEq_of_load hSelf hw hv hm hk⟩

/-- An object with a whole number that a graph does not hold as one, and with an array in it. -/
def largeTree : Json :=
  .object [("n", .number (.integer (2 ^ 63))), ("a", .array [.text "x", .null])]

/-- The same in YAML, with tags around the array, twice, and around a text in it. -/
def taggedTree : Yaml :=
  .mapping [(.text "n", .number (.integer (2 ^ 63))),
    (.text "a", .tagged "!s" (.tagged "!t" (.sequence [.tagged "!u" (.text "x"), .null])))]

/-- The object, with its array at the given place. -/
def largeFields (id : Nat) : Fields Value :=
  .ofList [("n", .number (.ofNumeral (.integer (2 ^ 63)))), ("a", .container (.array id))]

def largeHeap : Heap where
  objects := #[largeFields 0]
  arrays := #[[.text "x", .null]]

/-- The heap with the object loaded a second time. -/
def largeTwice : Heap where
  objects := #[largeFields 0, largeFields 1]
  arrays := #[[.text "x", .null], [.text "x", .null]]

theorem inYaml_taggedTree : largeTree.InYaml taggedTree := by
  have hItems : Json.ItemsInYaml [.text "x", .null] [.tagged "!u" (.text "x"), .null] :=
    .cons (.tagged _ (.text "x")) (.cons .null .nil)
  exact .object (.cons "n" (.number _)
    (.cons "a" (.tagged _ (.tagged _ (.array hItems))) .nil))

theorem isNaN_largeTree : ∀ s ∈ largeTree.scalars, s.isNaN = false := by
  have hLarge : (Value.number (.ofNumeral (.integer (2 ^ 63)))).isNaN = false := by
    have hFits : fitsInt64 (2 ^ 63) = false := by decide
    rw [Number.ofNumeral, hFits]
    exact Decimal.isNaN_ofInt _
  intro s hs
  rcases List.mem_cons.1 hs with rfl | hs
  · exact hLarge
  · rcases List.mem_cons.1 hs with rfl | hs
    · rfl
    · rw [List.mem_singleton.1 hs]
      rfl

theorem load_inYaml_agrees_tagged :
    largeTree.InYaml taggedTree ∧ (∀ s ∈ largeTree.scalars, s.isNaN = false) ∧
      largeTree.load .empty = (.container (.object 0), largeHeap) ∧
      taggedTree.load .empty = (.container (.object 0), largeHeap) ∧
      taggedTree.load largeHeap = (.container (.object 1), largeTwice) ∧
      largeTwice.Copies (.container (.object 0)) (.container (.object 1)) ∧
      Search.structuralEq largeTwice (.container (.object 0)) (.container (.object 1)) = true := by
  obtain ⟨hLoad, hBeside⟩ := load_inYaml_agrees inYaml_taggedTree
  have hFirst : largeTree.load .empty = (.container (.object 0), largeHeap) := rfl
  have hSecond : taggedTree.load largeHeap = (.container (.object 1), largeTwice) := rfl
  have hExtends : largeHeap.Extends largeTwice :=
    ⟨#[largeFields 1], #[[.text "x", .null]], rfl⟩
  obtain ⟨hCopies, hEqual⟩ := hBeside _ _ _ _ _ _ _ hFirst hSecond hExtends (.refl _)
  exact ⟨inYaml_taggedTree, isNaN_largeTree, hFirst, (hLoad .empty).trans hFirst, hSecond, hCopies,
    (hEqual isNaN_largeTree).1⟩

end DocGraph
