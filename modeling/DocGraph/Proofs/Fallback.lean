import DocGraph.Proofs.Coverage

/-!
# DocGraph: expressions without a token

Reading has a rule of last resort: an expression that yields no token although it holds no point and
no bracket is a token as a whole. The rule is never needed. A token starts at every character but the
points and the brackets, so only these are skipped, and no token is spelled with these alone. An
expression without a token therefore consists of points and brackets, and one that holds none of
them is a token as a whole already by the scan, blanks at its ends included.

* `texts_eq_nil_iff`: a text has no token exactly if it consists of points and brackets.
* `texts_eq_self_iff`: a text is its only token exactly if it holds none of them and is not empty.
* `read_eq_readScanned`: reading is scanning, but for blank expressions.
-/

namespace DocGraph.Path

/-! ## What is skipped and what is spelled -/

theorem isMeta_of_mem_segments {s : List Char} {c : Char} (hMem : .skipped c ∈ segments s) :
    isMeta c = true := by
  obtain ⟨front, back, hSplit⟩ := List.append_of_mem hMem
  exact isMeta_of_not_startsToken (not_startsToken_of_split hSplit)

/-- Every spelling has a character that is no point and no bracket. -/
theorem Spelling.exists_plain {source text : List Char} (h : Spelling source text) :
    ∃ c ∈ source, isMeta c = false := by
  cases h with
  | quoted hQuote => exact ⟨_, by simp, isMeta_of_isQuote hQuote⟩
  | numeric hNil hDigits =>
    obtain ⟨d, hd⟩ := List.exists_mem_of_ne_nil _ hNil
    exact ⟨d, by simp [hd], isMeta_of_isDigit (hDigits d hd)⟩
  | bare hNil hText =>
    obtain ⟨c, hc⟩ := List.exists_mem_of_ne_nil _ hNil
    exact ⟨c, hc, hText c hc⟩

theorem Item.exists_plain {source text : List Char} (h : Item source text) :
    ∃ c ∈ source, isMeta c = false := by
  cases h with
  | plain hSpelling => exact hSpelling.exists_plain
  | dotted hSpelling =>
    obtain ⟨c, hMem, hc⟩ := hSpelling.exists_plain
    exact ⟨c, List.mem_cons_of_mem _ hMem, hc⟩

theorem mem_iff_mem_source {s : List Char} {c : Char} :
    c ∈ s ↔ ∃ part ∈ segments s, c ∈ part.source := by
  rw [← List.mem_flatMap, flatMap_source_segments]

/-! ## Texts without a token, and texts that are one -/

theorem texts_eq_nil_iff {s : List Char} :
    (segments s).filterMap Segment.text? = [] ↔ ∀ c ∈ s, isMeta c = true := by
  rw [List.filterMap_eq_nil_iff]
  constructor
  · intro hTexts c hc
    obtain ⟨part, hPart, hSource⟩ := mem_iff_mem_source.1 hc
    cases part with
    -- there would be a token
    | token source text => exact absurd (hTexts _ hPart) (Option.some_ne_none _)
    | skipped d =>
      obtain rfl := List.mem_singleton.1 hSource
      exact isMeta_of_mem_segments hPart
  · intro hMeta part hPart
    cases part with
    -- the text would hold the plain character that the token is spelled with
    | token source text =>
      obtain ⟨c, hSource, hPlain⟩ := (item_of_mem_segments hPart).exists_plain
      rw [hMeta c (mem_iff_mem_source.2 ⟨_, hPart, hSource⟩)] at hPlain
      contradiction
    | skipped d => rfl

/-- A text is its only token exactly if it is plain. -/
theorem texts_eq_self_iff {expr : String} :
    (segments expr.toList).filterMap Segment.text? = [expr] ↔ Plain expr.toList := by
  constructor
  · intro hTexts
    have hHeavy := (weight_tokens expr.toList).2
    rw [hTexts] at hHeavy
    -- the token is as heavy as the text, so nothing is left over for quotes and for skipping
    have hWeight : weight expr.toList ≤ totalWeight [expr] := by
      rw [totalWeight, List.flatMap_singleton]
    exact hHeavy hWeight expr (List.mem_singleton_self expr)
  · rintro ⟨hNil, hPlain⟩
    rw [segments_plain hNil hPlain]
    simp [Segment.text?]

/-! ## Expressions -/

/-- What the scan alone makes of an expression. -/
def scan (expr : String) : Outcome :=
  ⟨(segments expr.toList).filterMap Segment.text?, recoveries 0 (segments expr.toList)⟩

/-- Reading without the rule for expressions that yield no token. -/
def readScanned (expr : String) : Outcome :=
  if Text.isBlankText expr then ⟨[], []⟩ else scan expr

theorem scan_eq_self_iff {expr : String} : scan expr = ⟨[expr], []⟩ ↔ Plain expr.toList := by
  rw [scan, Outcome.mk.injEq, texts_eq_self_iff]
  -- of a plain text nothing is skipped
  refine and_iff_left_of_imp fun hPlain => ?_
  rw [segments_plain hPlain.1 hPlain.2]
  rfl

theorem isMeta_iff {c : Char} : isMeta c = true ↔ c ∈ ['.', '[', ']'] := by
  simp [isMeta, or_assoc]

/-- The scan yields no token exactly for texts of points and brackets. So an expression that is not
blank and holds none of these always has one: it is its only token, with nothing skipped, and no other
expression is. Reading without the rule for expressions that yield no token is the same. -/
theorem read_eq_readScanned (expr : String) :
    ((scan expr).tokens = [] ↔ ∀ c ∈ expr.toList, c ∈ ['.', '[', ']']) ∧
      (Text.isBlankText expr = false →
        ¬ ((scan expr).tokens = [] ∧ ∀ c ∈ expr.toList, c ∉ ['.', '[', ']']) ∧
          (scan expr = ⟨[expr], []⟩ ↔ ∀ c ∈ expr.toList, c ∉ ['.', '[', ']'])) ∧
      read expr = readScanned expr := by
  have hNone : (scan expr).tokens = [] ↔ ∀ c ∈ expr.toList, c ∈ ['.', '[', ']'] := by
    simp only [← isMeta_iff]
    exact texts_eq_nil_iff
  refine ⟨hNone, fun hBlank => ?_, ?_⟩
  · have hNil := Text.toList_ne_nil_of_not_blank hBlank
    constructor
    -- any character at all would have to be both
    · rintro ⟨hTokens, hPlain⟩
      obtain ⟨c, hc⟩ := List.exists_mem_of_ne_nil _ hNil
      exact hPlain c hc (hNone.1 hTokens c hc)
    · rw [scan_eq_self_iff, Plain, and_iff_right hNil]
      simp only [← isMeta_iff, Bool.not_eq_true]
  · unfold readScanned
    cases hBlank : Text.isBlankText expr with
    | true => rw [read, if_pos hBlank, if_pos rfl]
    | false =>
      rw [read_of_not_blank hBlank, if_neg Bool.false_ne_true]
      rfl

/-- Blanks of two kinds around a digit and two quotes that nothing closes. -/
theorem read_eq_readScanned_padded :
    Text.isBlankText "\u2003'7\"\u3000" = false ∧
      scan "\u2003'7\"\u3000" = ⟨["\u2003'7\"\u3000"], []⟩ ∧
      read "\u2003'7\"\u3000" = ⟨["\u2003'7\"\u3000"], []⟩ := by
  have hBlank : Text.isBlankText "\u2003'7\"\u3000" = false := by decide
  have hPlain : ∀ c ∈ "\u2003'7\"\u3000".toList, c ∉ ['.', '[', ']'] := by simp
  obtain ⟨-, hScan, hRead⟩ := read_eq_readScanned "\u2003'7\"\u3000"
  have hToken := (hScan hBlank).2.2 hPlain
  refine ⟨hBlank, hToken, ?_⟩
  rw [hRead, readScanned, hBlank, if_neg Bool.false_ne_true, hToken]

end DocGraph.Path
