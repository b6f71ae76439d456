import DocGraph.Proofs.Composition

/-!
# DocGraph: which tokens an expression can have

Between quotes a token may hold points, brackets, blanks, the other quote, or nothing at all. It may
hold its own quote as well, even in front of the one that ends it. What it cannot hold is that which
ends it: its quote, then blanks, then a closing bracket. There are two quotes to choose from, and no
other spelling lets a token hold a closing bracket. So the tokens that an expression can have are
the texts that leave one of the two quotes unclosed, and in quotes they can stand in any order.

* `unclosed_iff`: reading a text as quoted text tells whether it closes the quote.
* `quotable_of_mem_parse`: what an expression yields can be quoted, also where text is skipped.
* `read_quotedPath`: texts in quotes, one behind the other, read as these texts.
* `parse_eq_iff_quotable`: the two together, and what this means for lookups.
-/

namespace DocGraph.Path

open Text (isBlank)

/-! ## Texts that leave a quote unclosed -/

theorem isSome_quoted? {quote : Char} {front blanks back : List Char}
    (hBlanks : ∀ c ∈ blanks, isBlank c = true) :
    (quoted? quote (front ++ quote :: (blanks ++ ']' :: back))).isSome = true := by
  induction front with
  | nil =>
    have hClosing : closing? (blanks ++ ']' :: back) = some (blanks ++ [']'], back) :=
      closing?_eq_some_iff.2 ⟨blanks, hBlanks, rfl, rfl⟩
    rw [List.nil_append, quoted?, if_pos rfl, hClosing]
    rfl
  | cons c front ih =>
    rw [List.cons_append, quoted?]
    split
    -- the text is closed at its first character already
    · rfl
    · rw [Option.isSome_map]
      exact ih

theorem unclosed_iff {quote : Char} {text : List Char} :
    Unclosed quote text ↔ (quoted? quote text).isNone = true := by
  constructor
  · intro hUnclosed
    rw [Option.isNone_iff_eq_none, Option.eq_none_iff_forall_ne_some]
    intro x hx
    obtain ⟨hRest, -, after, hAfter, hSource⟩ := quoted?_sound hx
    have hText : text = x.text ++ quote :: (after ++ ']' :: x.rest) := by
      rw [← hRest, hSource]
      simp
    exact hUnclosed x.text after x.rest hText hAfter
  · intro hNone front blanks back hText hBlanks
    rw [hText, Option.isNone_iff_eq_none] at hNone
    have hSome := @isSome_quoted? quote front blanks back hBlanks
    rw [hNone] at hSome
    contradiction

instance (quote : Char) (text : List Char) : Decidable (Unclosed quote text) :=
  decidable_of_iff _ unclosed_iff.symm

theorem unclosed_of_not_mem {quote : Char} {text : List Char} (hText : ']' ∉ text) :
    Unclosed quote text := by
  intro front blanks back hEq _
  apply hText
  rw [hEq]
  simp

/-- One of the two quotes is not closed by the text. -/
def Quotable (text : String) : Prop :=
  Unclosed '\'' text.toList ∨ Unclosed '"' text.toList

instance (text : String) : Decidable (Quotable text) :=
  inferInstanceAs (Decidable (_ ∨ _))

theorem quotable_iff {text : String} :
    Quotable text ↔ ∃ quote, isQuote quote = true ∧ Unclosed quote text.toList := by
  constructor
  · rintro (hUnclosed | hUnclosed)
    · exact ⟨'\'', by decide, hUnclosed⟩
    · exact ⟨'"', by decide, hUnclosed⟩
  · rintro ⟨quote, hQuote, hUnclosed⟩
    simp only [isQuote, Bool.or_eq_true, beq_iff_eq] at hQuote
    rcases hQuote with rfl | rfl
    · exact .inl hUnclosed
    · exact .inr hUnclosed

/-! ## What expressions yield -/

theorem quotable_of_spelling {source text : List Char} (h : Spelling source text) :
    Quotable (String.ofList text) := by
  rw [quotable_iff, String.toList_ofList]
  cases h with
  | quoted hQuote _ _ hUnclosed => exact ⟨_, hQuote, hUnclosed⟩
  -- without quotes there is no closing bracket in the text, so either quote will do
  | numeric _ hDigits =>
    refine ⟨'\'', by decide, unclosed_of_not_mem fun hMem => ?_⟩
    exact absurd (hDigits ']' hMem) (by decide)
  | bare _ hPlain =>
    refine ⟨'\'', by decide, unclosed_of_not_mem fun hMem => ?_⟩
    exact absurd (hPlain ']' hMem) (by decide)

theorem quotable_of_item {source text : List Char} (h : Item source text) :
    Quotable (String.ofList text) := by
  cases h with
  | plain hSpelling => exact quotable_of_spelling hSpelling
  | dotted hSpelling => exact quotable_of_spelling hSpelling

theorem quotable_of_mem_texts (s : List Char) :
    ∀ t ∈ (segments s).filterMap Segment.text?, Quotable t := by
  induction s using segments.induct with
  | case1 s x hToken ih =>
    rw [segments_token hToken, List.filterMap_cons_some (by rfl)]
    exact List.forall_mem_cons.2 ⟨quotable_of_item (item_of_token hToken).2, ih⟩
  | case2 => simp [segments_nil]
  | case3 c rest hToken ih =>
    rw [segments_skip hToken, List.filterMap_cons_none (by rfl)]
    exact ih

theorem quotable_of_mem_parse {expr token : String} (hMem : token ∈ parse expr) :
    Quotable token := by
  cases hBlank : Text.isBlankText expr with
  | true =>
    rw [parse, read, if_pos hBlank] at hMem
    contradiction
  | false =>
    rw [parse_of_not_blank hBlank] at hMem
    exact quotable_of_mem_texts expr.toList token hMem

/-! ## Texts in quotes -/

/-- A text with a quote that it does not close. -/
structure Quoted where
  quote : Char
  text : String
  isQuote : Path.isQuote quote = true
  unclosed : Unclosed quote text.toList

namespace Quoted

/-- The text between its quotes, in brackets. -/
def source (q : Quoted) : List Char :=
  '[' :: q.quote :: (q.text.toList ++ [q.quote, ']'])

theorem spelling (q : Quoted) : Spelling q.source q.text.toList :=
  @Spelling.quoted q.quote [] q.text.toList [] q.isQuote (by simp) (by simp) q.unclosed

def piece (q : Quoted) : Piece where
  dotted := false
  spelled := q.source
  text := q.text.toList
  spelling := q.spelling

theorem not_isBare_piece (q : Quoted) : ¬ q.piece.IsBare :=
  not_plain_of_bracket _

end Quoted

/-- The expression that names texts in quotes, one behind the other. -/
def quotedPath (list : List Quoted) : String :=
  String.ofList (list.flatMap Quoted.source)

theorem exists_quoted_iff {tokens : List String} :
    (∃ list : List Quoted, list.map Quoted.text = tokens) ↔ ∀ t ∈ tokens, Quotable t := by
  constructor
  · rintro ⟨list, rfl⟩ t ht
    obtain ⟨q, -, rfl⟩ := List.mem_map.1 ht
    exact quotable_iff.2 ⟨q.quote, q.isQuote, q.unclosed⟩
  · intro hQuotable
    induction tokens with
    | nil => exact ⟨[], rfl⟩
    | cons t tokens ih =>
      obtain ⟨hHead, hTail⟩ := List.forall_mem_cons.1 hQuotable
      obtain ⟨quote, hQuote, hUnclosed⟩ := quotable_iff.1 hHead
      obtain ⟨list, hList⟩ := ih hTail
      refine ⟨⟨quote, t, hQuote, hUnclosed⟩ :: list, ?_⟩
      rw [List.map_cons, hList]

/-- Texts in quotes need nothing between them, for none of them is bare. -/
theorem isChain_quoted (list : List Quoted) : (list.map Quoted.piece).IsChain Seam := by
  rw [List.isChain_map]
  refine List.Pairwise.isChain (List.pairwise_of_forall fun q _ => ?_)
  intro hBare
  exact absurd hBare q.not_isBare_piece

theorem segments_quoted (list : List Quoted) :
    segments (list.flatMap Quoted.source) = list.map fun q => .token q.source q.text.toList := by
  have hRow := segments_row (isChain_quoted list)
  rw [List.flatMap_map, List.map_map] at hRow
  exact hRow

theorem read_quotedPath (list : List Quoted) :
    read (quotedPath list) = ⟨list.map Quoted.text, []⟩ := by
  cases list with
  | nil => rfl
  | cons q list =>
    have hList : (quotedPath (q :: list)).toList = (q :: list).flatMap Quoted.source :=
      String.toList_ofList
    have hBlank : Text.isBlankText (quotedPath (q :: list)) = false :=
      isBlankText_eq_false (c := '[') (by simp [hList, Quoted.source]) (by decide)
    have hTokens : ((q :: list).map fun q => Segment.token q.source q.text.toList).filterMap
        Segment.text? = (q :: list).map Quoted.text := by
      rw [List.filterMap_map, ← List.filterMap_eq_map]
      congr 1
      funext q
      simp [Segment.text?]
    have hClean : recoveries 0 ((q :: list).map fun q => .token q.source q.text.toList) = [] := by
      refine recoveries_eq_nil_iff.2 fun segment hMem => ?_
      obtain ⟨q, -, rfl⟩ := List.mem_map.1 hMem
      rfl
    rw [read_of_not_blank hBlank, hList, segments_quoted, hTokens, hClean]

/-- Some expression has exactly these tokens if and only if each of them can be quoted. Then they can
be written in quotes, and however the quotes are chosen, the texts in quotes one behind the other
are read as the tokens, with nothing skipped. So such an expression leads where the tokens lead. -/
theorem parse_eq_iff_quotable (tokens : List String) :
    ((∃ expr, parse expr = tokens) ↔ ∀ t ∈ tokens, Quotable t) ∧
      ((∀ t ∈ tokens, Quotable t) → ∃ list : List Quoted, list.map Quoted.text = tokens) ∧
      ∀ list : List Quoted, list.map Quoted.text = tokens →
        read (quotedPath list) = ⟨tokens, []⟩ ∧
          ∀ (h : Heap) (root : Value),
            get h root (.expression (quotedPath list)) = get h root (.tokens tokens) := by
  refine ⟨⟨?_, fun hQuotable => ?_⟩, exists_quoted_iff.2, ?_⟩
  · rintro ⟨expr, rfl⟩ t ht
    exact quotable_of_mem_parse ht
  · obtain ⟨list, hList⟩ := exists_quoted_iff.2 hQuotable
    exact ⟨quotedPath list, by rw [parse, read_quotedPath, hList]⟩
  · rintro list rfl
    have hRead := read_quotedPath list
    refine ⟨hRead, fun h root => ?_⟩
    have hTokens : (Locator.expression (quotedPath list)).toTokens = list.map Quoted.text := by
      rw [Locator.toTokens, parse, hRead]
    rw [get_eq, get_eq, hTokens, Locator.toTokens]

example : ¬ Quotable "'] \"]" := by decide

/-- Tokens that need their quotes: one with a point, one with the other quote and blanks in front of
a bracket, one that ends in its own quote, and the empty one. -/
def awkward : List Quoted := [
  ⟨'\'', "a.b", by decide, by decide⟩,
  ⟨'\'', "x\"  ]", by decide, by decide⟩,
  ⟨'"', "it's\"", by decide, by decide⟩,
  ⟨'"', "", by decide, by decide⟩]

theorem parse_eq_iff_quotable_awkward :
    (∀ t ∈ ["a.b", "x\"  ]", "it's\"", ""], Quotable t) ∧
      awkward.map Quoted.text = ["a.b", "x\"  ]", "it's\"", ""] ∧
      (∃ expr, parse expr = ["a.b", "x\"  ]", "it's\"", ""]) ∧
      read "['a.b']['x\"  ]'][\"it's\"\"][\"\"]" = ⟨["a.b", "x\"  ]", "it's\"", ""], []⟩ ∧
      get ringHeap (.container (.object 0)) (.expression (quotedPath awkward)) =
        get ringHeap (.container (.object 0)) (.tokens ["a.b", "x\"  ]", "it's\"", ""]) := by
  have hQuotable : ∀ t ∈ ["a.b", "x\"  ]", "it's\"", ""], Quotable t := by decide
  obtain ⟨hSome, -, hQuoted⟩ := parse_eq_iff_quotable ["a.b", "x\"  ]", "it's\"", ""]
  obtain ⟨hRead, hGet⟩ := hQuoted awkward rfl
  exact ⟨hQuotable, rfl, hSome.2 hQuotable, hRead, hGet _ _⟩

end DocGraph.Path
