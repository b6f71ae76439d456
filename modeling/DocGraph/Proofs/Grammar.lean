import DocGraph.Proofs.Spelling
import Mathlib.Data.List.Chain

/-!
# DocGraph: the grammar of path expressions

A path expression is a row of pieces, each a spelling of a token with a point in front of it or
none. Pieces stand side by side in any order but one: behind a bare piece the next bare one needs
its point, or both would be read as one. The scanner accepts exactly these rows and cuts them
between the pieces, although it looks at the text from the front only and a quoted piece may hold
anything that looks like the end of it but for a quote, blanks and a bracket.

* `undotted?_spelling` / `token?_piece`: a piece is cut off whatever follows, unless it is bare and
  a plain character follows.
* `segments_pieces` / `segments_row`: a row of pieces is cut between them, whatever follows it.
* `exists_pieces`: a text of which nothing is skipped is a row of pieces.
* `segments_append`: such a text is cut in the same way whatever follows it.
* `read_eq_clean_iff`: the two directions together.
-/

namespace DocGraph.Path

open Text (isBlank)

/-- A spelling of a token, with a point in front of it or none. -/
structure Piece where
  dotted : Bool
  spelled : List Char
  text : List Char
  spelling : Spelling spelled text

namespace Piece

/-- A piece as it stands in an expression. -/
def source (p : Piece) : List Char :=
  if p.dotted then '.' :: p.spelled else p.spelled

/-- The spelling is a run of characters other than the point and the brackets. -/
def IsBare (p : Piece) : Prop :=
  ∀ c ∈ p.spelled, isMeta c = false

/-- What the scanner makes of a piece. -/
def segment (p : Piece) : Segment :=
  .token p.source p.text

end Piece

/-- What two pieces side by side have to keep: a bare one behind a bare one has a point. -/
def Seam (p q : Piece) : Prop :=
  p.IsBare → q.IsBare → q.dotted = true

/-! ## The front of a spelling -/

theorem isBlank_of_isQuote {c : Char} (hc : isQuote c = true) : isBlank c = false := by
  simp only [isQuote, Bool.or_eq_true, beq_iff_eq] at hc
  rcases hc with rfl | rfl <;> decide

/-- A spelling starts with a bracket, unless it is bare. -/
theorem Spelling.starts {source text : List Char} (h : Spelling source text) :
    (∃ rest, source = '[' :: rest) ∨
      source ≠ [] ∧ ∀ c ∈ source, isMeta c = false := by
  cases h with
  | quoted => exact .inl ⟨_, rfl⟩
  | numeric => exact .inl ⟨_, rfl⟩
  | bare hNil hText => exact .inr ⟨hNil, hText⟩

theorem not_plain_of_bracket (rest : List Char) : ¬ ∀ c ∈ '[' :: rest, isMeta c = false :=
  fun hPlain => absurd (hPlain '[' List.mem_cons_self) (by decide)

theorem Spelling.head?_ne_dot {source text : List Char} (h : Spelling source text)
    (rest : List Char) : (source ++ rest).head? ≠ some '.' := by
  rcases h.starts with ⟨tail, rfl⟩ | ⟨hNil, hPlain⟩
  · simp
  · obtain ⟨c, tail, rfl⟩ := List.exists_cons_of_ne_nil hNil
    have hMeta := hPlain c List.mem_cons_self
    rw [List.cons_append, List.head?_cons, ne_eq, Option.some_inj]
    rintro rfl
    simp [isMeta] at hMeta

/-! ## Quoted text in front of any text -/

/-- A quote that nothing in the text closes is not closed by the quote behind the text. -/
theorem closing?_eq_none {quote : Char} {text back : List Char} (hQuote : isQuote quote = true)
    (hUnclosed : Unclosed quote (quote :: text)) : closing? (text ++ quote :: back) = none := by
  rw [Option.eq_none_iff_forall_ne_some]
  rintro ⟨close, rest⟩ hClosing
  obtain ⟨blanks, hBlanks, -, hEq⟩ := closing?_eq_some_iff.1 hClosing
  have hBracket : quote ≠ ']' := by
    rintro rfl
    simp [isQuote] at hQuote
  -- the closing bracket stands in the text, or a quote among the blanks
  rcases List.append_eq_append_iff.1 hEq with ⟨as, hBlanksEq, hBack⟩ | ⟨bs, hText, hBack⟩
  · cases as with
    | nil =>
      rw [List.nil_append, List.cons.injEq] at hBack
      exact hBracket hBack.1
    | cons a as =>
      rw [List.cons_append, List.cons.injEq] at hBack
      have hBlank := hBlanks a (by simp [hBlanksEq])
      rw [← hBack.1, isBlank_of_isQuote hQuote] at hBlank
      contradiction
  · cases bs with
    | nil =>
      rw [List.nil_append, List.cons.injEq] at hBack
      exact hBracket hBack.1.symm
    | cons b bs =>
      rw [List.cons_append, List.cons.injEq] at hBack
      obtain ⟨rfl, -⟩ := hBack
      exact hUnclosed [] blanks bs (by rw [hText, List.nil_append]) hBlanks

theorem Unclosed.tail {quote c : Char} {text : List Char} (h : Unclosed quote (c :: text)) :
    Unclosed quote text := by
  intro front blanks back hEq
  exact h (c :: front) blanks back (by rw [hEq, List.cons_append])

theorem quoted?_append {quote : Char} {text after : List Char} (hQuote : isQuote quote = true)
    (hAfter : ∀ c ∈ after, isBlank c = true) (hUnclosed : Unclosed quote text)
    (rest : List Char) :
    quoted? quote (text ++ quote :: (after ++ ']' :: rest)) =
      some ⟨text ++ quote :: (after ++ [']']), text, rest⟩ := by
  induction text with
  | nil =>
    have hClosing : closing? (after ++ ']' :: rest) = some (after ++ [']'], rest) :=
      closing?_eq_some_iff.2 ⟨after, hAfter, rfl, rfl⟩
    rw [List.nil_append, quoted?, if_pos rfl, hClosing]
    rfl
  | cons c text ih =>
    -- no character of the text is the closing quote
    have hOpen : (if c = quote then closing? (text ++ quote :: (after ++ ']' :: rest)) else none) =
        none := by
      by_cases hc : c = quote
      · subst hc
        rw [if_pos rfl, closing?_eq_none hQuote hUnclosed]
      · rw [if_neg hc]
    rw [List.cons_append, quoted?, hOpen, ih hUnclosed.tail]
    rfl

theorem undotted?_quoted {quote : Char} {before text after : List Char}
    (hQuote : isQuote quote = true) (hBefore : ∀ c ∈ before, isBlank c = true)
    (hAfter : ∀ c ∈ after, isBlank c = true) (hUnclosed : Unclosed quote text)
    (rest : List Char) :
    undotted? ('[' :: (before ++ quote :: (text ++ quote :: (after ++ ']' :: rest)))) =
      some ⟨'[' :: (before ++ quote :: (text ++ quote :: (after ++ [']']))), text, rest⟩ := by
  obtain ⟨hTake, hDrop⟩ := takeWhile_dropWhile_append (p := isBlank) (s := before)
    (t := quote :: (text ++ quote :: (after ++ ']' :: rest))) hBefore
    (by simp [isBlank_of_isQuote hQuote])
  have hOpening :
      opening? ('[' :: (before ++ quote :: (text ++ quote :: (after ++ ']' :: rest)))) =
        some .quotedBracket := by
    simp [opening?, hDrop, hQuote]
  rw [undotted?, hOpening]
  simp [quotedBracket?, hTake, hDrop, quoted?_append hQuote hAfter hUnclosed]

/-! ## A piece in front of any text -/

/-- A spelling is cut off whatever follows, if only a bare one does not go on. -/
theorem undotted?_spelling {source text rest : List Char} (h : Spelling source text)
    (hRest : (∀ c ∈ source, isMeta c = false) → EndsBare rest) :
    undotted? (source ++ rest) = some ⟨source, text, rest⟩ := by
  cases h with
  | quoted hQuote hBefore hAfter hUnclosed =>
    simpa using undotted?_quoted hQuote hBefore hAfter hUnclosed rest
  | numeric hNil hDigits hBefore hAfter =>
    simpa using @undotted?_numeric _ _ _ rest hNil hDigits hBefore hAfter
  | bare hNil hText => exact undotted?_bare hNil hText (hRest hText)

theorem token?_piece (p : Piece) {rest : List Char} (hRest : p.IsBare → EndsBare rest) :
    token? (p.source ++ rest) = some ⟨p.source, p.text, rest⟩ := by
  have hUndotted := undotted?_spelling p.spelling hRest
  rw [Piece.source]
  split
  · rw [List.cons_append, token?_dot, hUndotted]
    rfl
  · rw [token?_eq_undotted (p.spelling.head?_ne_dot rest), hUndotted]

/-- A bare piece may go before a row of pieces exactly if the row does not go on with plain text. -/
theorem endsBare_pieces_iff {p : Piece} {pieces : List Piece} {rest : List Char}
    (hBare : p.IsBare) (hRest : EndsBare rest) :
    EndsBare (pieces.flatMap Piece.source ++ rest) ↔ ∀ q ∈ pieces.head?, Seam p q := by
  cases pieces with
  | nil => simpa using hRest
  | cons q pieces =>
    simp only [List.flatMap_cons, List.append_assoc, List.head?_cons, Option.mem_some_iff,
      forall_eq', Seam, hBare, forall_const, Piece.source]
    cases hDotted : q.dotted with
    | true => simpa [EndsBare] using (by decide : isMeta '.' = true)
    | false =>
      rcases q.spelling.starts with ⟨tail, hTail⟩ | ⟨hNil, hPlain⟩
      -- a bracket
      · have hNot : ¬ q.IsBare := by
          rw [Piece.IsBare, hTail]
          exact not_plain_of_bracket tail
        simp [EndsBare, hTail, hNot, isMeta]
      -- a plain character
      · obtain ⟨c, tail, hTail⟩ := List.exists_cons_of_ne_nil hNil
        have hMeta := hPlain c (by simp [hTail])
        have hq : q.IsBare := hPlain
        simp [EndsBare, hTail, hq, hMeta]

/-- A row of pieces is cut between the pieces, whatever follows the row. -/
theorem segments_pieces {pieces : List Piece} {rest : List Char}
    (hSeams : pieces.IsChain Seam) (hRest : EndsBare rest) :
    segments (pieces.flatMap Piece.source ++ rest) = pieces.map Piece.segment ++ segments rest := by
  induction pieces with
  | nil => rfl
  | cons p pieces ih =>
    obtain ⟨hSeam, hSeams⟩ := List.isChain_cons.1 hSeams
    have hToken := token?_piece p fun hBare => (endsBare_pieces_iff hBare hRest).2 hSeam
    rw [List.flatMap_cons, List.append_assoc, segments_token hToken, ih hSeams]
    rfl

theorem segments_row {pieces : List Piece} (hSeams : pieces.IsChain Seam) :
    segments (pieces.flatMap Piece.source) = pieces.map Piece.segment := by
  have hRow := segments_pieces hSeams endsBare_nil
  rwa [List.append_nil, segments_nil, List.append_nil] at hRow

/-! ## A text of which nothing is skipped -/

/-- A bare token goes on as far as plain characters do. -/
theorem endsBare_rest {s : List Char} {x : Lexeme} (h : undotted? s = some x)
    (hBare : ∀ c ∈ x.source, isMeta c = false) : EndsBare x.rest := by
  obtain ⟨hSource, hSpelling⟩ := spelling_of_undotted h
  rcases hSpelling.starts with ⟨tail, hTail⟩ | ⟨hNil, -⟩
  · rw [hTail] at hBare
    exact absurd hBare (not_plain_of_bracket tail)
  · obtain ⟨c, tail, hTail⟩ := List.exists_cons_of_ne_nil hNil
    have hCons : s = c :: (tail ++ x.rest) := by rw [← hSource, hTail, List.cons_append]
    -- the text starts with a plain character, so all plain characters up to the next are taken
    have hOpening : opening? s = some .bareToken := by
      rw [hCons]
      exact opening?_of_plain (hBare c (by simp [hTail]))
    rw [undotted?, hOpening] at h
    cases h
    intro d hd
    have hStop := List.head?_dropWhile_not (fun c => !isMeta c) s
    rw [bareToken, Option.mem_def] at hd
    rw [hd] at hStop
    simpa using hStop

theorem exists_piece {s : List Char} {x : Lexeme} (h : token? s = some x) :
    x.source ++ x.rest = s ∧
      ∃ p : Piece, p.source = x.source ∧ (p.IsBare → EndsBare x.rest) := by
  refine ⟨(item_of_token h).1, ?_⟩
  rw [token?.eq_def] at h
  split at h
  · obtain ⟨y, hy, rfl⟩ := Option.map_eq_some_iff.1 h
    exact ⟨⟨true, y.source, y.text, (spelling_of_undotted hy).2⟩, rfl, endsBare_rest hy⟩
  · exact ⟨⟨false, x.source, x.text, (spelling_of_undotted h).2⟩, rfl, endsBare_rest h⟩

/-- The segment is a token. -/
def Segment.IsToken (segment : Segment) : Prop :=
  segment.text?.isSome = true

/-- A text of which nothing is skipped is a row of pieces. -/
theorem exists_pieces {s : List Char} (hTokens : ∀ segment ∈ segments s, segment.IsToken) :
    ∃ pieces : List Piece, pieces.flatMap Piece.source = s ∧ pieces.IsChain Seam := by
  induction s using segments.induct with
  | case1 s x hToken ih =>
    rw [segments_token hToken] at hTokens
    obtain ⟨hSource, p, hp, hBare⟩ := exists_piece hToken
    obtain ⟨pieces, hPieces, hSeams⟩ := ih (List.forall_mem_cons.1 hTokens).2
    refine ⟨p :: pieces, ?_, List.isChain_cons.2 ⟨fun q hq hpBare => ?_, hSeams⟩⟩
    · rw [List.flatMap_cons, hp, hPieces, hSource]
    -- a bare piece was cut off where plain text ends
    · have hEnds := hBare hpBare
      rw [← hPieces, ← List.append_nil (pieces.flatMap Piece.source)] at hEnds
      exact (endsBare_pieces_iff hpBare endsBare_nil).1 hEnds q hq hpBare
  | case2 => exact ⟨[], rfl, .nil⟩
  | case3 c rest hToken ih =>
    rw [segments_skip hToken] at hTokens
    have hSkipped := hTokens _ List.mem_cons_self
    simp [Segment.IsToken, Segment.text?] at hSkipped

/-- A text of which nothing is skipped is cut in the same way whatever follows it. -/
theorem segments_append {s t : List Char} (hTokens : ∀ segment ∈ segments s, segment.IsToken)
    (ht : EndsBare t) : segments (s ++ t) = segments s ++ segments t := by
  obtain ⟨pieces, rfl, hSeams⟩ := exists_pieces hTokens
  rw [segments_pieces hSeams ht, segments_row hSeams]

theorem recoveries_eq_nil_iff {position : Nat} {list : List Segment} :
    recoveries position list = [] ↔ ∀ segment ∈ list, segment.IsToken := by
  induction list generalizing position with
  | nil => simp [recoveries]
  | cons segment list ih =>
    cases segment with
    | token source text => simp [recoveries, ih, Segment.IsToken, Segment.text?]
    | skipped c => simp [recoveries, Segment.IsToken, Segment.text?]

theorem text?_pieces (pieces : List Piece) :
    (pieces.map Piece.segment).filterMap Segment.text? =
      pieces.map fun p => String.ofList p.text := by
  rw [List.filterMap_map, ← List.filterMap_eq_map]
  rfl

/-- An expression that is not blank reads as tokens, with nothing skipped, exactly if it is a row
of pieces with these texts in which a bare piece behind a bare one has a point. -/
theorem read_eq_clean_iff {expr : String} (hBlank : Text.isBlankText expr = false)
    (tokens : List String) :
    read expr = ⟨tokens, []⟩ ↔
      ∃ pieces : List Piece, pieces.flatMap Piece.source = expr.toList ∧ pieces.IsChain Seam ∧
        pieces.map (fun p => String.ofList p.text) = tokens := by
  rw [read_of_not_blank hBlank, Outcome.mk.injEq, recoveries_eq_nil_iff]
  constructor
  · rintro ⟨hTokens, hClean⟩
    obtain ⟨pieces, hPieces, hSeams⟩ := exists_pieces hClean
    rw [← hPieces, segments_row hSeams, text?_pieces] at hTokens
    exact ⟨pieces, hPieces, hSeams, hTokens⟩
  · rintro ⟨pieces, hPieces, hSeams, hTokens⟩
    rw [← hPieces, segments_row hSeams, text?_pieces]
    refine ⟨hTokens, fun segment hSegment => ?_⟩
    obtain ⟨p, -, rfl⟩ := List.mem_map.1 hSegment
    rfl

/-- A quote inside quotes, a bracket behind it, and a blank behind the closing quote. -/
theorem read_eq_clean_quoted :
    Text.isBlankText "x['a'b]' ].y" = false ∧
      read "x['a'b]' ].y" = ⟨["x", "a'b]", "y"], []⟩ := by
  have hUnclosed : Unclosed '\'' "a'b]".toList := by
    intro front blanks back hEq hBlanks
    -- the quote is the second character, and no blank follows it
    rcases front with _ | ⟨a, _ | ⟨b, _ | ⟨c, _ | ⟨d, front⟩⟩⟩⟩ <;> simp at hEq
    obtain ⟨-, hBack⟩ := hEq
    cases blanks with
    | nil => simp at hBack
    | cons b blanks =>
      rw [List.cons_append, List.cons.injEq] at hBack
      obtain ⟨rfl, -⟩ := hBack
      exact absurd (hBlanks 'b' List.mem_cons_self) (by decide)
  have hBlank : isBlank ' ' = true := by decide
  have hQuoted := @Spelling.quoted '\'' [] "a'b]".toList [' '] (by decide) (by simp)
    (by simp [hBlank]) hUnclosed
  have hBare : ∀ c, isMeta c = false → Spelling [c] [c] :=
    fun c hc => .bare (by simp) (by simp [hc])
  refine ⟨by decide, (read_eq_clean_iff (by decide) _).2
    ⟨[⟨false, _, _, hBare 'x' (by decide)⟩, ⟨false, _, _, hQuoted⟩,
      ⟨true, _, _, hBare 'y' (by decide)⟩], by rfl, ?_, by rfl⟩⟩
  refine .cons_cons (fun _ hBare => ?_) (.cons_cons (fun _ _ => rfl) (.singleton _))
  exact absurd hBare (not_plain_of_bracket _)

end DocGraph.Path
