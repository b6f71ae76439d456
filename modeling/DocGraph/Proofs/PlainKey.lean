import DocGraph.Proofs.Rendering
import DocGraph.Proofs.Spelling

/-!
# DocGraph: which rendered paths read back

Rendering quotes nothing, so a name that is empty or holds a point or bracket is read as something
else. What is read could still be the keys by chance, for a name may hold a quoted copy of other
keys. Counting rules this out. Characters other than points and brackets come from the keys alone
in a rendered path, so if the tokens are the keys, none of them is left over for skipping or for
quotes: every token is written bare or as digits.

* `weight_tokens`: the tokens of a text weigh no more than the text, and if as much, they are plain.
* `segments_render`: the path of plain keys is cut between the keys.
* `parse_render_eq_iff`: a path reads back exactly if its keys are plain.
-/

namespace DocGraph.Path

/-- How many characters of a text are neither points nor brackets. -/
def weight (s : List Char) : Nat :=
  s.countP fun c => !isMeta c

/-- A text that is read as one token wherever it stands. -/
def Plain (s : List Char) : Prop :=
  s ≠ [] ∧ ∀ c ∈ s, isMeta c = false

theorem weight_append (s t : List Char) : weight (s ++ t) = weight s + weight t :=
  List.countP_append

theorem weight_cons_of_meta {c : Char} (hc : isMeta c = true) (s : List Char) :
    weight (c :: s) = weight s :=
  List.countP_cons_of_neg (by simp [hc])

theorem weight_cons_of_plain {c : Char} (hc : isMeta c = false) (s : List Char) :
    weight (c :: s) = weight s + 1 :=
  List.countP_cons_of_pos (by simp [hc])

/-! ## Tokens are lighter than their source, unless they are plain -/

theorem weight_spelling {source text : List Char} (h : Spelling source text) :
    weight text ≤ weight source ∧ (weight source ≤ weight text → Plain text) := by
  have hOpen : isMeta '[' = true := by decide
  cases h with
  | quoted hQuote hBefore hAfter hUnclosed =>
    have hPlain := isMeta_of_isQuote hQuote
    -- the two quotes weigh more than nothing
    rw [weight_cons_of_meta hOpen, weight_append, weight_cons_of_plain hPlain, weight_append,
      weight_cons_of_plain hPlain]
    omega
  | numeric hNil hDigits hBefore hAfter =>
    rw [weight_cons_of_meta hOpen, weight_append, weight_append]
    exact ⟨by omega, fun _ => ⟨hNil, fun c hc => isMeta_of_isDigit (hDigits c hc)⟩⟩
  | bare hNil hText => exact ⟨Nat.le_refl _, fun _ => ⟨hNil, hText⟩⟩

theorem weight_item {source text : List Char} (h : Item source text) :
    weight text ≤ weight source ∧ (weight source ≤ weight text → Plain text) := by
  cases h with
  | plain hSpelling => exact weight_spelling hSpelling
  | dotted hSpelling =>
    rw [weight_cons_of_meta (by decide)]
    exact weight_spelling hSpelling

/-- The weight of texts put together. -/
def totalWeight (texts : List String) : Nat :=
  weight (texts.flatMap String.toList)

theorem totalWeight_cons (text : String) (texts : List String) :
    totalWeight (text :: texts) = weight text.toList + totalWeight texts := by
  rw [totalWeight, List.flatMap_cons, weight_append]
  rfl

theorem weight_tokens (s : List Char) :
    totalWeight ((segments s).filterMap Segment.text?) ≤ weight s ∧
      (weight s ≤ totalWeight ((segments s).filterMap Segment.text?) →
        ∀ t ∈ (segments s).filterMap Segment.text?, Plain t.toList) := by
  induction s using segments.induct with
  | case1 s x hToken ih =>
    obtain ⟨hSource, hItem⟩ := item_of_token hToken
    obtain ⟨hLe, hPlain⟩ := weight_item hItem
    obtain ⟨ihLe, ihPlain⟩ := ih
    -- the text is as heavy as its tokens only if its front and its rest both are
    have hWeight : weight s = weight x.source + weight x.rest := by
      rw [← hSource, weight_append]
    have hText : (String.ofList x.text).toList = x.text := String.toList_ofList
    rw [segments_token hToken, List.filterMap_cons_some (by rfl)]
    rw [totalWeight_cons, hText]
    refine ⟨by omega, fun hHeavy => List.forall_mem_cons.2 ⟨?_, ihPlain (by omega)⟩⟩
    rw [hText]
    exact hPlain (by omega)
  | case2 hToken =>
    rw [segments_nil]
    simp [totalWeight, weight]
  | case3 c rest hToken ih =>
    rw [segments_skip hToken, List.filterMap_cons_none (by rfl)]
    have hWeight : weight rest ≤ weight (c :: rest) := by
      cases hc : isMeta c with
      | true => exact Nat.le_of_eq (weight_cons_of_meta hc rest).symm
      | false =>
        rw [weight_cons_of_plain hc]
        exact Nat.le_succ _
    exact ⟨Nat.le_trans ih.1 hWeight, fun hHeavy => ih.2 (Nat.le_trans hWeight hHeavy)⟩

/-! ## Rendered paths -/

theorem isDigit_of_mem_toString {n : Nat} : ∀ c ∈ (toString n).toList, c.isDigit = true := by
  intro c hc
  rw [Nat.toString_eq_ofList_toDigits, String.toList_ofList] at hc
  exact Nat.isDigit_of_mem_toDigits (by decide) (by decide) hc

theorem toList_toString_ne_nil {n : Nat} : (toString n).toList ≠ [] := by
  rw [Nat.toString_eq_ofList_toDigits, String.toList_ofList]
  exact Nat.toDigits_ne_nil

/-- Positions are always plain. -/
theorem plain_toString (n : Nat) : Plain (toString n).toList :=
  ⟨toList_toString_ne_nil, fun c hc => isMeta_of_isDigit (isDigit_of_mem_toString c hc)⟩

theorem weight_suffix (key : Key) : weight (suffix key) = weight key.text.toList := by
  cases key with
  | field name => exact weight_cons_of_meta (by decide) _
  | index position =>
    have hClose : weight [']'] = 0 := by decide
    rw [suffix, weight_cons_of_meta (by decide), weight_append, hClose]
    rfl

/-- Points and brackets apart, a rendered path holds the texts of its keys and nothing else. -/
theorem weight_render (keys : List Key) :
    weight (render keys).toList = totalWeight (keys.map Key.text) := by
  have hSuffix : ∀ keys : List Key,
      weight (keys.flatMap suffix) = totalWeight (keys.map Key.text) := by
    intro keys
    induction keys with
    | nil => rfl
    | cons key keys ih =>
      rw [List.flatMap_cons, weight_append, weight_suffix, ih, List.map_cons, totalWeight_cons]
  -- the first key stands bare, without the punctuation of its suffix
  cases keys with
  | nil => rfl
  | cons key keys =>
    rw [toList_render_cons, weight_append, hSuffix, List.map_cons, totalWeight_cons]

theorem endsBare_suffix (keys : List Key) : EndsBare (keys.flatMap suffix) := by
  cases keys with
  | nil => exact endsBare_nil
  | cons key keys => cases key <;> exact endsBare_cons (by decide)

/-- The scanner cuts the suffix of a plain key off as one token. -/
theorem token?_suffix {key : Key} (hPlain : Plain key.text.toList) (keys : List Key) :
    token? (suffix key ++ keys.flatMap suffix) =
      some ⟨suffix key, key.text.toList, keys.flatMap suffix⟩ := by
  cases key with
  | field name =>
    have hToken : undotted? (name.toList ++ keys.flatMap suffix) =
        some ⟨name.toList, name.toList, keys.flatMap suffix⟩ :=
      undotted?_bare hPlain.1 hPlain.2 (endsBare_suffix keys)
    rw [suffix, List.cons_append, token?_dot, hToken]
    rfl
  | index position =>
    have hToken : undotted? ('[' :: ((toString position).toList ++ ']' :: keys.flatMap suffix)) =
        some ⟨'[' :: ((toString position).toList ++ [']']), (toString position).toList,
          keys.flatMap suffix⟩ :=
      @undotted?_numeric [] _ [] _ toList_toString_ne_nil isDigit_of_mem_toString
        (by simp) (by simp)
    have hSource : suffix (.index position) ++ keys.flatMap suffix =
        '[' :: ((toString position).toList ++ ']' :: keys.flatMap suffix) := by
      rw [suffix, List.cons_append, List.append_assoc]
      rfl
    rw [hSource, token?_eq_undotted (by simp), hToken]
    rfl

theorem segments_suffixes {keys : List Key} (hPlain : ∀ key ∈ keys, Plain key.text.toList) :
    segments (keys.flatMap suffix) = keys.map fun key => .token (suffix key) key.text.toList := by
  induction keys with
  | nil => exact segments_nil
  | cons key keys ih =>
    obtain ⟨hKey, hKeys⟩ := List.forall_mem_cons.1 hPlain
    rw [List.flatMap_cons, segments_token (token?_suffix hKey keys), ih hKeys]
    rfl

/-- The path of plain keys is cut between the keys. -/
theorem segments_render {key : Key} {keys : List Key}
    (hPlain : ∀ k ∈ key :: keys, Plain k.text.toList) :
    segments (render (key :: keys)).toList =
      .token key.text.toList key.text.toList ::
        keys.map fun key => .token (suffix key) key.text.toList := by
  obtain ⟨hKey, hKeys⟩ := List.forall_mem_cons.1 hPlain
  rw [toList_render_cons, segments_token (token?_bare hKey.1 hKey.2 (endsBare_suffix keys)),
    segments_suffixes hKeys]

/-! ## Which keys read back -/

/-- Keys whose rendered path reads back: fields are nonempty and hold no point or bracket, and a
field on its own is not blank. -/
structure Readable (keys : List Key) : Prop where
  plain : ∀ name, .field name ∈ keys →
    name ≠ "" ∧ ∀ c ∈ name.toList, c ≠ '.' ∧ c ≠ '[' ∧ c ≠ ']'
  visible : ∀ name, keys = [.field name] → Text.isBlankText name = false

theorem plain_toList_iff (name : String) :
    Plain name.toList ↔ name ≠ "" ∧ ∀ c ∈ name.toList, c ≠ '.' ∧ c ≠ '[' ∧ c ≠ ']' := by
  unfold Plain
  rw [ne_eq, String.toList_eq_nil_iff]
  simp [isMeta, and_assoc]

theorem Readable.plain_text {keys : List Key} (h : Readable keys) :
    ∀ key ∈ keys, Plain key.text.toList := by
  intro key hKey
  cases key with
  | field name => exact (plain_toList_iff name).2 (h.plain name hKey)
  | index position => exact plain_toString position

theorem isBlankText_eq_false {s : String} {c : Char} (hMem : c ∈ s.toList)
    (hc : Text.isBlank c = false) : Text.isBlankText s = false := by
  rw [Text.isBlankText, List.all_eq_false]
  exact ⟨c, hMem, by simp [hc]⟩

theorem exists_meta_of_suffix (key : Key) : ∃ c ∈ suffix key, isMeta c = true := by
  cases key with
  | field name => exact ⟨'.', List.mem_cons_self, by decide⟩
  | index position => exact ⟨'[', List.mem_cons_self, by decide⟩

/-- Only the path of a single blank field is blank. -/
theorem Readable.not_blank {key : Key} {keys : List Key} (h : Readable (key :: keys)) :
    Text.isBlankText (render (key :: keys)) = false := by
  cases keys with
  | nil =>
    have hRender : render [key] = key.text := rfl
    rw [hRender]
    cases key with
    | field name => exact h.visible name rfl
    | index position =>
      obtain ⟨c, hMem⟩ := List.exists_mem_of_ne_nil _ (toList_toString_ne_nil (n := position))
      exact isBlankText_eq_false hMem (isBlank_of_isDigit (isDigit_of_mem_toString c hMem))
  | cons second keys =>
    -- the suffix of a second key starts with a point or a bracket
    obtain ⟨c, hMem, hMeta⟩ := exists_meta_of_suffix second
    have hBlank : Text.isBlank c = false := by
      rw [← Bool.not_eq_true]
      intro hBlank
      rw [isMeta_of_isBlank hBlank] at hMeta
      contradiction
    refine isBlankText_eq_false ?_ hBlank
    rw [toList_render_cons, List.flatMap_cons]
    simp [hMem]

theorem recoveries_tokens (keys : List Key) (position : Nat) :
    recoveries position (keys.map fun key => .token (suffix key) key.text.toList) = [] := by
  induction keys generalizing position with
  | nil => rfl
  | cons key keys ih =>
    rw [List.map_cons, recoveries]
    exact ih _

theorem text?_tokens (keys : List Key) :
    (keys.map fun key => Segment.token (suffix key) key.text.toList).filterMap Segment.text? =
      keys.map Key.text := by
  induction keys with
  | nil => rfl
  | cons key keys ih =>
    rw [List.map_cons, List.filterMap_cons_some (by rfl), ih, String.ofList_toList]
    rfl

theorem Readable.read_render {keys : List Key} (h : Readable keys) :
    read (render keys) = ⟨keys.map Key.text, []⟩ := by
  cases keys with
  | nil => rfl
  | cons key keys =>
    rw [read_of_not_blank h.not_blank, segments_render h.plain_text, recoveries, recoveries_tokens,
      List.filterMap_cons_some (by rfl), text?_tokens, String.ofList_toList]
    rfl

/-- If the tokens are the keys, they are as heavy as the path, hence plain. -/
theorem readable_of_parse {keys : List Key} (h : parse (render keys) = keys.map Key.text) :
    Readable keys := by
  rw [parse] at h
  by_cases hBlank : Text.isBlankText (render keys) = true
  -- a blank path has no tokens, so there are no keys
  · rw [read, if_pos hBlank] at h
    have hNil : keys = [] := List.map_eq_nil_iff.1 h.symm
    subst hNil
    exact ⟨by simp, by simp⟩
  · rw [Bool.not_eq_true] at hBlank
    rw [read_of_not_blank hBlank] at h
    change (segments (render keys).toList).filterMap Segment.text? = keys.map Key.text at h
    -- the tokens weigh as much as the keys, and these as much as the path
    have hPlain := (weight_tokens (render keys).toList).2
    rw [h, weight_render] at hPlain
    refine ⟨fun name hName => ?_, fun name hSingle => ?_⟩
    · have hText := hPlain (Nat.le_refl _) (Key.field name).text (List.mem_map_of_mem hName)
      exact (plain_toList_iff name).1 hText
    · subst hSingle
      exact hBlank

/-- A path reads back as its keys exactly if the keys are plain and, if it is a single field, it
is not blank; nothing is skipped then. -/
theorem parse_render_eq_iff (keys : List Key) :
    (parse (render keys) = keys.map Key.text ↔ Readable keys) ∧
      (Readable keys → (read (render keys)).recoveries = []) := by
  refine ⟨⟨readable_of_parse, fun h => ?_⟩, fun h => ?_⟩
  · rw [parse, h.read_render]
  · rw [h.read_render]

end DocGraph.Path
