import DocGraph.Proofs.Writing

/-!
# DocGraph: which keys of a mapping share a text

A graph names fields by texts, and a YAML mapping has keys of any kind, so different keys may become
one name. That a text is spelled like another key cannot be helped: the number one and the text of
its digit are both named by the digit. Nothing else is confused with a null, a boolean or a number.
Two of these have one text only if they are the same key, and a sequence, a mapping or a tagged node
leaves a mark in its text that none of them has.

* `same_of_keyText_eq`: nulls, booleans and numbers by their texts.
* `exists_mark`: the mark of a sequence, a mapping or a tagged node.
* `keyText_eq_cases`: which keys share a text.
-/

namespace DocGraph.Yaml

/-- A null, a boolean or a number. -/
def isBare : Yaml → Bool
  | .null => true
  | .bool _ => true
  | .number _ => true
  | _ => false

def isText : Yaml → Bool
  | .text _ => true
  | _ => false

/-- A sequence, a mapping or a tagged node. -/
def isNested : Yaml → Bool
  | .sequence _ => true
  | .mapping _ => true
  | .tagged _ _ => true
  | _ => false

/-! ## Nulls, booleans and numbers -/

theorem numeral_ne {n : Numeral} {word : String} {c : Char} {rest : List Char}
    (hWord : word.toList = c :: rest) (hc : c ∈ ['n', 't', 'f']) : numeral n ≠ word := by
  rintro rfl
  obtain ⟨sign, body, hText⟩ := isNumberText_numeral n
  obtain ⟨d, rest', hBody, hd⟩ := hText.head
  have hEq := hText.eq
  rw [hWord, hBody] at hEq
  rcases hText.sign with rfl | rfl
  · cases hEq
    simp only [List.mem_cons, List.not_mem_nil, or_false] at hc hd
    exact hd (by tauto)
  · cases hEq
    simp at hc

/-- Nulls, booleans and numbers with one text are the same key. -/
theorem same_of_keyText_eq {k l : Yaml} (hk : k.isBare = true) (hl : l.isBare = true)
    (hText : k.keyText = l.keyText) : same k l = true := by
  have hTrue : (toString true).toList = ['t', 'r', 'u', 'e'] := by decide
  have hFalse : (toString false).toList = ['f', 'a', 'l', 's', 'e'] := by decide
  have hNull : ("null" : String).toList = ['n', 'u', 'l', 'l'] := by decide
  -- the words begin with letters that no number begins with
  have hBool : ∀ (b : Bool) n, numeral n ≠ toString b := by
    intro b n
    cases b with
    | true => exact numeral_ne hTrue (by simp)
    | false => exact numeral_ne hFalse (by simp)
  have hNullBool : ∀ b : Bool, "null" ≠ toString b := by decide
  cases k with
  | null =>
    cases l with
    | null => rw [same]
    | bool b => exact absurd hText (hNullBool b)
    | number n => exact absurd hText.symm (numeral_ne hNull (by simp))
    | text | sequence | mapping | tagged => contradiction
  | bool a =>
    cases l with
    | null => exact absurd hText.symm (hNullBool a)
    | bool b =>
      have hInjective : ∀ a b : Bool, toString a = toString b → a = b := by decide
      rw [same, hInjective a b hText, beq_self_eq_true]
    | number n => exact absurd hText.symm (hBool a n)
    | text | sequence | mapping | tagged => contradiction
  | number m =>
    cases l with
    | null => exact absurd hText (numeral_ne hNull (by simp))
    | bool b => exact absurd hText (hBool b m)
    | number n =>
      rw [same]
      exact sameNumeral_of_numeral_eq hText
    | text | sequence | mapping | tagged => contradiction
  | text | sequence | mapping | tagged => contradiction

/-- A null, a boolean or a number is not written as a hyphen, nor with any character but its own. -/
theorem keyText_of_isBare {k : Yaml} (hk : k.isBare = true) :
    k.keyText.toList ≠ ['-'] ∧ ∀ c ∈ k.keyText.toList, isBareChar c = true := by
  cases k with
  | null =>
    rw [keyText]
    exact ⟨by decide, by simp [isBareChar]⟩
  | bool b =>
    rw [keyText]
    cases b with
    | true =>
      have hTrue : (toString true).toList = ['t', 'r', 'u', 'e'] := by decide
      exact ⟨by decide, by simp [hTrue, isBareChar]⟩
    | false =>
      have hFalse : (toString false).toList = ['f', 'a', 'l', 's', 'e'] := by decide
      exact ⟨by decide, by simp [hFalse, isBareChar]⟩
  | number n =>
    rw [keyText]
    obtain ⟨sign, body, hText⟩ := isNumberText_numeral n
    obtain ⟨d, rest, hBody, hd⟩ := hText.head
    rw [hText.eq]
    constructor
    · intro hHyphen
      rcases hText.sign with rfl | rfl
      · rw [hBody] at hHyphen
        cases hHyphen
        simp at hd
      · rw [hBody] at hHyphen
        simp at hHyphen
    · intro c hc
      rcases List.mem_append.1 hc with hc | hc
      · rcases hText.sign with rfl | rfl
        · contradiction
        · rw [List.mem_singleton.1 hc]
          rfl
      · exact hText.bare c hc
  | text | sequence | mapping | tagged => contradiction

/-! ## Sequences, mappings and tagged nodes -/

theorem prefix_trimEnd (s : String) : (Text.trimEnd s).toList <+: s.toList := by
  rw [Text.trimEnd, String.toList_ofList, ← List.reverse_suffix, List.reverse_reverse]
  exact List.dropWhile_suffix _

theorem mem_trimEnd {s : String} {c : Char} (hc : c ∈ s.toList) (hBlank : Text.isBlank c = false) :
    c ∈ (Text.trimEnd s).toList := by
  rw [Text.trimEnd, String.toList_ofList, List.mem_reverse]
  have hSplit : c ∈ s.toList.reverse.takeWhile Text.isBlank ++
      s.toList.reverse.dropWhile Text.isBlank := by
    rw [List.takeWhile_append_dropWhile]
    exact List.mem_reverse.2 hc
  refine (List.mem_append.1 hSplit).resolve_left fun hBlanks => ?_
  rw [List.mem_takeWhile_imp hBlanks] at hBlank
  contradiction

theorem exists_writtenTag (tag : String) : ∃ rest, (writtenTag tag).toList = '!' :: rest := by
  have hLone : ("!<" : String).toList = ['!', '<'] := by decide
  have hMark : ("!" : String).toList = ['!'] := by decide
  rw [writtenTag]
  split <;> simp [hLone, hMark]

theorem keyText_of_isNested {k : Yaml} (hk : k.isNested = true) :
    k.keyText = Text.trimEnd (write none .root .start k).text := by
  cases k with
  | sequence | mapping | tagged => rfl
  | null | bool | number | text => contradiction

theorem mem_write_tagged (tag : String) (inner : Yaml) :
    '!' ∈ (write none .root .start (.tagged tag inner)).text.toList := by
  obtain ⟨rest, hTag⟩ := exists_writtenTag tag
  rw [write]
  refine (write_grows inner none .root (Pen.start.tag (writtenTag tag))).mem ?_
  rw [Pen.tag, if_pos (by rfl), Pen.put, String.toList_append, String.toList_ofList, hTag]
  exact List.mem_append_right _ List.mem_cons_self

theorem mem_write_mapping (key value : Yaml) (rest : List (Yaml × Yaml)) :
    ':' ∈ (write none .root .start (.mapping ((key, value) :: rest))).text.toList := by
  rw [write.eq_def]
  show ':' ∈ (writeEntries 0 .start ((key, value) :: rest)).text.toList
  rw [writeEntries_cons]
  obtain ⟨q, -, hColon⟩ := @exists_colon 0 .start key (write_grows key _)
  have hGrows := (write_grows value (some 0) .entry (keyPen 0 .start key)).trans
    (writeEntries_grows rest 0 _)
  refine hGrows.mem ?_
  rw [hColon]
  exact List.mem_append_right _ List.mem_cons_self

/-- Items stand behind a hyphen and a blank. -/
theorem prefix_write_sequence (item : Yaml) (rest : List Yaml) :
    ['-', ' '] <+: (write none .root .start (.sequence (item :: rest))).text.toList := by
  have hHyphen : ((Pen.start.goTo 0).mark ['-'] true true).text.toList = ['-'] := by decide
  rw [write.eq_def]
  show ['-', ' '] <+: (writeItems 0 .start (item :: rest)).text.toList
  rw [writeItems]
  have hItem : (((Pen.start.goTo 0).mark ['-'] true true).put [' ']).Grows
      (write (some 0) .item ((Pen.start.goTo 0).mark ['-'] true true) item) :=
    write_apart item (by decide) (by decide) (by decide)
  have hGrows := hItem.trans (writeItems_grows rest 0 _)
  rw [Pen.Grows, Pen.put, String.toList_append, hHyphen] at hGrows
  exact hGrows

/-- What is left of the text of a sequence that has items begins with a hyphen, and the blank behind
it is left as well if anything else is. -/
theorem keyText_sequence_cases (item : Yaml) (rest : List Yaml) :
    (sequence (item :: rest)).keyText.toList = ['-'] ∨
      ∃ c ∈ (sequence (item :: rest)).keyText.toList, isBareChar c = false := by
  have hPrint : (sequence (item :: rest)).keyText =
      Text.trimEnd (write none .root .start (.sequence (item :: rest))).text :=
    keyText_of_isNested rfl
  obtain ⟨s, hText⟩ := prefix_write_sequence item rest
  have hHyphen : '-' ∈ (write none .root .start (.sequence (item :: rest))).text.toList :=
    hText ▸ List.mem_cons_self
  have hKept := mem_trimEnd hHyphen (by decide)
  have hTrim := prefix_trimEnd (write none .root .start (.sequence (item :: rest))).text
  rw [← hPrint] at hKept
  rw [← hPrint, ← hText] at hTrim
  -- nothing is left, or one character, or two and more of those that have been written
  rcases hKey : (sequence (item :: rest)).keyText.toList with _ | ⟨c, _ | ⟨d, chars⟩⟩
  · rw [hKey] at hKept
    contradiction
  · rw [hKey] at hKept
    rw [List.mem_singleton.1 hKept]
    exact .inl rfl
  · rw [hKey] at hTrim
    obtain ⟨_, hEq⟩ := hTrim
    cases hEq
    exact .inr ⟨' ', by simp, by decide⟩

/-- The text of a sequence, a mapping or a tagged node is a hyphen, or has a character that no null,
no boolean and no number has. -/
theorem exists_mark {k : Yaml} (hk : k.isNested = true) :
    k.keyText.toList = ['-'] ∨ ∃ c ∈ k.keyText.toList, isBareChar c = false := by
  have hPrint := keyText_of_isNested hk
  cases k with
  | tagged tag inner =>
    have hMark := mem_trimEnd (mem_write_tagged tag inner) (by decide)
    exact .inr ⟨'!', hPrint ▸ hMark, by decide⟩
  | mapping entries =>
    cases entries with
    | nil => exact .inr ⟨'\x7b', by decide, by decide⟩
    | cons entry rest =>
      have hMark := mem_trimEnd (mem_write_mapping entry.1 entry.2 rest) (by decide)
      exact .inr ⟨':', hPrint ▸ hMark, by decide⟩
  | sequence items =>
    cases items with
    | nil => exact .inr ⟨'[', by decide, by decide⟩
    | cons item rest => exact keyText_sequence_cases item rest
  | null | bool | number | text => contradiction

/-! ## All keys -/

theorem isText_eq_false {k : Yaml} (hk : k.isBare = true ∨ k.isNested = true) :
    k.isText = false := by
  cases k with
  | text => exact absurd hk (by simp [isBare, isNested])
  | _ => rfl

theorem isBare_or_isText_or_isNested (k : Yaml) :
    k.isBare = true ∨ (∃ s, k = .text s) ∨ k.isNested = true := by
  cases k with
  | text s => exact .inr (.inl ⟨s, rfl⟩)
  | null | bool | number => exact .inl rfl
  | sequence | mapping | tagged => exact .inr (.inr rfl)

theorem keyText_ne {k l : Yaml} (hk : k.isBare = true) (hl : l.isNested = true) :
    k.keyText ≠ l.keyText := by
  intro hEq
  obtain ⟨hHyphen, hBare⟩ := keyText_of_isBare hk
  rw [hEq] at hHyphen hBare
  obtain hMark | ⟨c, hc, hMark⟩ := exists_mark hl
  · exact hHyphen hMark
  · rw [hBare c hc] at hMark
    contradiction

/-- Keys with one text are the same key, unless just one of them is a text, or each of them is a
sequence, a mapping or a tagged node. -/
theorem keyText_eq_cases {k l : Yaml} (hText : k.keyText = l.keyText) :
    same k l = true ∨ k.isText ≠ l.isText ∨ k.isNested = true ∧ l.isNested = true := by
  have hOther : ∀ {k : Yaml} (s : String), k.isBare = true ∨ k.isNested = true →
      k.isText ≠ (Yaml.text s).isText := by
    intro k s hk
    rw [isText_eq_false hk, isText]
    exact Bool.false_ne_true
  rcases isBare_or_isText_or_isNested k with hk | ⟨s, rfl⟩ | hk
  · rcases isBare_or_isText_or_isNested l with hl | ⟨t, rfl⟩ | hl
    · exact .inl (same_of_keyText_eq hk hl hText)
    · exact .inr (.inl (hOther t (.inl hk)))
    · exact absurd hText (keyText_ne hk hl)
  · rcases isBare_or_isText_or_isNested l with hl | ⟨t, rfl⟩ | hl
    · exact .inr (.inl (hOther s (.inl hl)).symm)
    · rw [keyText, keyText] at hText
      rw [hText, same, beq_self_eq_true]
      exact .inl rfl
    · exact .inr (.inl (hOther s (.inr hl)).symm)
  · rcases isBare_or_isText_or_isNested l with hl | ⟨t, rfl⟩ | hl
    · exact absurd hText.symm (keyText_ne hl hk)
    · exact .inr (.inl (hOther t (.inr hk)))
    · exact .inr (.inr ⟨hk, hl⟩)

/-- The newlines that end the text of a last item are lost. -/
example :
    same (.sequence [.text "a\n\n"]) (.sequence [.text "a\n\n\n"]) = false ∧
      keyText (.sequence [.text "a\n\n"]) = keyText (.sequence [.text "a\n\n\n"]) := by
  decide

end DocGraph.Yaml
