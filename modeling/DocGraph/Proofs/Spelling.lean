import DocGraph.Path.Scan

/-!
# DocGraph: how tokens are spelled

The scanner cuts a token off the front of a text by looking ahead. What it cuts off is one of
three spellings, perhaps with a point in front, and nothing of the text is lost.

* `spelling_of_undotted` / `item_of_token`: the source of a token is a spelling of its text.
* `token?_bare` / `token?_numeric`: two spellings that are always recognised.
* `read_of_not_blank`: an expression that is not blank reads as its segments say; the case that
  takes it as a token as a whole does not arise.
-/

namespace DocGraph.Path

open Text (isBlank)

/-- No quote in the text is followed by blanks and a closing bracket. -/
def Unclosed (quote : Char) (text : List Char) : Prop :=
  ∀ front blanks back, text = front ++ quote :: (blanks ++ ']' :: back) →
    ¬ ∀ c ∈ blanks, isBlank c = true

/-- The ways to write a token without a point in front: the source and the text it stands for. -/
inductive Spelling : List Char → List Char → Prop
  | quoted {quote : Char} {before text after : List Char} :
      isQuote quote = true → (∀ c ∈ before, isBlank c = true) → (∀ c ∈ after, isBlank c = true) →
      Unclosed quote text →
      Spelling ('[' :: (before ++ quote :: (text ++ quote :: (after ++ [']'])))) text
  | numeric {before digits after : List Char} :
      digits ≠ [] → (∀ c ∈ digits, c.isDigit = true) → (∀ c ∈ before, isBlank c = true) →
      (∀ c ∈ after, isBlank c = true) →
      Spelling ('[' :: (before ++ (digits ++ (after ++ [']'])))) digits
  | bare {text : List Char} :
      text ≠ [] → (∀ c ∈ text, isMeta c = false) → Spelling text text

/-- A spelling, or a point and a spelling. -/
inductive Item : List Char → List Char → Prop
  | plain {source text : List Char} : Spelling source text → Item source text
  | dotted {source text : List Char} : Spelling source text → Item ('.' :: source) text

/-! ## Characters -/

/-- A class of characters without the point and the brackets. -/
theorem isMeta_eq_false {p : Char → Bool} (hDot : p '.' = false) (hOpen : p '[' = false)
    (hClose : p ']' = false) {c : Char} (hc : p c = true) : isMeta c = false := by
  simp only [isMeta, Bool.or_eq_false_iff, beq_eq_false_iff_ne]
  refine ⟨⟨?_, ?_⟩, ?_⟩
  · rintro rfl
    simp [hDot] at hc
  · rintro rfl
    simp [hOpen] at hc
  · rintro rfl
    simp [hClose] at hc

theorem isMeta_of_isDigit {c : Char} (hc : c.isDigit = true) : isMeta c = false :=
  isMeta_eq_false (by decide) (by decide) (by decide) hc

theorem isMeta_of_isBlank {c : Char} (hc : isBlank c = true) : isMeta c = false :=
  isMeta_eq_false (by decide) (by decide) (by decide) hc

theorem isMeta_of_isQuote {c : Char} (hc : isQuote c = true) : isMeta c = false :=
  isMeta_eq_false (by decide) (by decide) (by decide) hc

theorem isBlank_of_isDigit {c : Char} (hc : c.isDigit = true) : isBlank c = false := by
  have hBlanks : (Text.blanks.all fun b => !b.isDigit) = true := by decide
  rw [isBlank, ← Bool.not_eq_true, List.contains_iff_mem]
  intro hMem
  have hDigit := List.all_eq_true.1 hBlanks c hMem
  simp [hc] at hDigit

theorem isDigit_of_isBlank {c : Char} (hc : isBlank c = true) : c.isDigit = false := by
  rw [← Bool.not_eq_true]
  intro hDigit
  simp [isBlank_of_isDigit hDigit] at hc

theorem isQuote_of_isDigit {c : Char} (hc : c.isDigit = true) : isQuote c = false := by
  simp only [isQuote, Bool.or_eq_false_iff, beq_eq_false_iff_ne]
  constructor <;> rintro rfl <;> exact absurd hc (by decide)

theorem mem_takeWhile {p : Char → Bool} {s : List Char} : ∀ c ∈ s.takeWhile p, p c = true :=
  List.all_eq_true.1 List.all_takeWhile

theorem takeWhile_append_of_dropWhile {p : Char → Bool} {s t : List Char}
    (h : s.dropWhile p = t) : s.takeWhile p ++ t = s := by
  rw [← h, List.takeWhile_append_dropWhile]

/-- A run of characters of a class ends before the first character outside it. -/
theorem takeWhile_dropWhile_append {p : Char → Bool} {s t : List Char}
    (hs : ∀ c ∈ s, p c = true) (ht : ∀ c ∈ t.head?, p c = false) :
    (s ++ t).takeWhile p = s ∧ (s ++ t).dropWhile p = t := by
  rw [List.takeWhile_append_of_pos hs, List.dropWhile_append_of_pos hs]
  cases t with
  | nil => simp
  | cons c t =>
    have hc : p c = false := ht c rfl
    simp [hc]

/-! ## What the scanner cuts off -/

theorem closing?_eq_some_iff {s close rest : List Char} :
    closing? s = some (close, rest) ↔
      ∃ blanks, (∀ c ∈ blanks, isBlank c = true) ∧ close = blanks ++ [']'] ∧
        s = blanks ++ ']' :: rest := by
  have hClose : isBlank ']' = false := by decide
  constructor
  · intro h
    rw [closing?] at h
    split at h
    · rename_i tail hTail
      cases h
      exact ⟨s.takeWhile isBlank, mem_takeWhile, rfl, (takeWhile_append_of_dropWhile hTail).symm⟩
    · simp at h
  · rintro ⟨blanks, hBlanks, rfl, rfl⟩
    obtain ⟨hTake, hDrop⟩ := takeWhile_dropWhile_append (t := ']' :: rest) hBlanks
      (by simp [hClose])
    rw [closing?, hTake, hDrop]
    rfl

/-- Quoted text goes up to the first quote that closes it. -/
theorem quoted?_sound {quote : Char} {s : List Char} {x : Lexeme}
    (h : quoted? quote s = some x) :
    x.source ++ x.rest = s ∧ Unclosed quote x.text ∧
      ∃ after, (∀ c ∈ after, isBlank c = true) ∧
        x.source = x.text ++ quote :: (after ++ [']']) := by
  induction s generalizing x with
  | nil => simp [quoted?] at h
  | cons c s ih =>
    rw [quoted?] at h
    split at h
    -- the closing quote
    · rename_i close rest hc
      cases h
      rw [Option.ite_none_right_eq_some] at hc
      obtain ⟨rfl, hClosing⟩ := hc
      obtain ⟨after, hAfter, rfl, rfl⟩ := closing?_eq_some_iff.1 hClosing
      refine ⟨by simp, ?_, after, hAfter, rfl⟩
      intro front blanks back hEq
      simp at hEq
    -- a character of the text
    · rename_i hOpen
      obtain ⟨y, hy, rfl⟩ := Option.map_eq_some_iff.1 h
      obtain ⟨hRest, hUnclosed, after, hAfter, hSource⟩ := ih hy
      refine ⟨by rw [List.cons_append, hRest], ?_, after, hAfter, by rw [hSource, List.cons_append]⟩
      intro front blanks back hEq hBlanks
      change c :: y.text = front ++ quote :: (blanks ++ ']' :: back) at hEq
      cases front with
      -- the character would have been the closing quote
      | nil =>
        rw [List.nil_append, List.cons.injEq] at hEq
        obtain ⟨rfl, hText⟩ := hEq
        have hClosing : closing? s =
            some (blanks ++ [']'], back ++ c :: (after ++ [']']) ++ y.rest) := by
          refine closing?_eq_some_iff.2 ⟨blanks, hBlanks, rfl, ?_⟩
          rw [← hRest, hSource, hText]
          simp
        simp [hClosing] at hOpen
      | cons d front =>
        rw [List.cons_append, List.cons.injEq] at hEq
        exact hUnclosed front blanks back hEq.2 hBlanks

/-- What each opening says about the text. -/
theorem opening?_sound {s : List Char} :
    (opening? s = some .quotedBracket →
      ∃ body quote rest, s = '[' :: body ∧ body.dropWhile isBlank = quote :: rest ∧
        isQuote quote = true) ∧
    (opening? s = some .bareToken → ∃ c rest, s = c :: rest ∧ isMeta c = false) := by
  rw [opening?.eq_def]
  split
  · simp
  · simp
  · simp
  · rename_i body
    split
    · simp
    -- behind the bracket and its blanks
    · rename_i quote rest hBody
      by_cases hQuote : isQuote quote = true
      · exact ⟨fun _ => ⟨body, quote, rest, rfl, hBody, hQuote⟩, by simp [hQuote]⟩
      · by_cases hDigit : quote.isDigit = true <;> simp [hQuote, hDigit]
  -- none of the three that the cases before have
  · rename_i c rest hDot hClose hOpen
    refine ⟨by simp, fun _ => ⟨c, rest, rfl, ?_⟩⟩
    simp only [isMeta, Bool.or_eq_false_iff, beq_eq_false_iff_ne]
    exact ⟨⟨hDot, hOpen⟩, hClose⟩

theorem spelling_of_quotedBracket {s : List Char} {x : Lexeme}
    (hOpening : opening? s = some .quotedBracket) (h : quotedBracket? s = some x) :
    x.source ++ x.rest = s ∧ Spelling x.source x.text := by
  obtain ⟨body, quote, rest, rfl, hBody, hQuote⟩ := opening?_sound.1 hOpening
  rw [quotedBracket?, hBody] at h
  obtain ⟨y, hy, rfl⟩ := Option.map_eq_some_iff.1 h
  obtain ⟨hRest, hUnclosed, after, hAfter, hSource⟩ := quoted?_sound hy
  constructor
  · have hAll := takeWhile_append_of_dropWhile hBody
    rw [← hRest] at hAll
    simpa using hAll
  · have hSpelling := Spelling.quoted hQuote (mem_takeWhile (p := isBlank) (s := body)) hAfter
      hUnclosed
    rw [← hSource] at hSpelling
    exact hSpelling

theorem spelling_of_numericBracket {s : List Char} {x : Lexeme} (h : numericBracket? s = some x) :
    x.source ++ x.rest = s ∧ Spelling x.source x.text := by
  rw [numericBracket?.eq_def] at h
  split at h
  · rename_i body
    simp only [Option.ite_none_left_eq_some] at h
    obtain ⟨hDigits, h⟩ := h
    obtain ⟨⟨close, rest⟩, hClosing, rfl⟩ := Option.map_eq_some_iff.1 h
    obtain ⟨after, hAfter, rfl, hRest⟩ := closing?_eq_some_iff.1 hClosing
    constructor
    · have hAll := takeWhile_append_of_dropWhile (takeWhile_append_of_dropWhile hRest).symm
      simpa using hAll
    · have hSpelling := Spelling.numeric (by simpa using hDigits) mem_takeWhile
        (mem_takeWhile (p := isBlank) (s := body)) hAfter
      simpa using hSpelling
  · simp at h

theorem spelling_of_bareToken {s : List Char} (hOpening : opening? s = some .bareToken) :
    (bareToken s).source ++ (bareToken s).rest = s ∧
      Spelling (bareToken s).source (bareToken s).text := by
  obtain ⟨c, rest, rfl, hMeta⟩ := opening?_sound.2 hOpening
  constructor
  · exact List.takeWhile_append_dropWhile
  · refine .bare ?_ fun d hd => by simpa using mem_takeWhile d hd
    rw [bareToken, List.takeWhile_cons_of_pos (by simp [hMeta])]
    simp

/-- The source of a token is one of its spellings, and what follows is left as it is. -/
theorem spelling_of_undotted {s : List Char} {x : Lexeme} (h : undotted? s = some x) :
    x.source ++ x.rest = s ∧ Spelling x.source x.text := by
  rw [undotted?] at h
  split at h
  · rename_i hOpening
    exact spelling_of_quotedBracket hOpening h
  · exact spelling_of_numericBracket h
  · rename_i hOpening
    cases h
    exact spelling_of_bareToken hOpening
  · simp at h
  · simp at h

/-- The source of a token is an item of the grammar. -/
theorem item_of_token {s : List Char} {x : Lexeme} (h : token? s = some x) :
    x.source ++ x.rest = s ∧ Item x.source x.text := by
  rw [token?.eq_def] at h
  split at h
  · obtain ⟨y, hy, rfl⟩ := Option.map_eq_some_iff.1 h
    obtain ⟨hRest, hSpelling⟩ := spelling_of_undotted hy
    exact ⟨by rw [List.cons_append, hRest], .dotted hSpelling⟩
  · obtain ⟨hRest, hSpelling⟩ := spelling_of_undotted h
    exact ⟨hRest, .plain hSpelling⟩

/-! ## Spellings that are always recognised -/

/-- No bare token goes on into the text. -/
def EndsBare (rest : List Char) : Prop :=
  ∀ c ∈ rest.head?, isMeta c = true

theorem endsBare_nil : EndsBare [] := by simp [EndsBare]

theorem endsBare_cons {c : Char} {rest : List Char} (hc : isMeta c = true) :
    EndsBare (c :: rest) := by simpa [EndsBare] using hc

theorem opening?_of_plain {c : Char} {s : List Char} (hc : isMeta c = false) :
    opening? (c :: s) = some .bareToken := by
  simp only [isMeta, Bool.or_eq_false_iff, beq_eq_false_iff_ne] at hc
  rw [opening?.eq_def]
  split <;> simp_all

theorem undotted?_bare {text rest : List Char} (hNil : text ≠ [])
    (hText : ∀ c ∈ text, isMeta c = false) (hRest : EndsBare rest) :
    undotted? (text ++ rest) = some ⟨text, text, rest⟩ := by
  have hOpening : opening? (text ++ rest) = some .bareToken := by
    obtain ⟨c, tail, rfl⟩ := List.exists_cons_of_ne_nil hNil
    exact opening?_of_plain (hText c List.mem_cons_self)
  obtain ⟨hTake, hDrop⟩ := takeWhile_dropWhile_append (p := fun c => !isMeta c) (s := text)
    (t := rest) (fun c hc => by simp [hText c hc]) (fun c hc => by simp [hRest c hc])
  rw [undotted?, hOpening]
  simp only [bareToken, hTake, hDrop]

theorem undotted?_numeric {before digits after rest : List Char} (hNil : digits ≠ [])
    (hDigits : ∀ c ∈ digits, c.isDigit = true) (hBefore : ∀ c ∈ before, isBlank c = true)
    (hAfter : ∀ c ∈ after, isBlank c = true) :
    undotted? ('[' :: (before ++ (digits ++ (after ++ ']' :: rest)))) =
      some ⟨'[' :: (before ++ (digits ++ (after ++ [']']))), digits, rest⟩ := by
  obtain ⟨d, tail, hCons⟩ := List.exists_cons_of_ne_nil hNil
  have hDigit : d.isDigit = true := hDigits d (by simp [hCons])
  have hClosing : closing? (after ++ ']' :: rest) = some (after ++ [']'], rest) :=
    closing?_eq_some_iff.2 ⟨after, hAfter, rfl, rfl⟩
  obtain ⟨hTakeBefore, hDropBefore⟩ := takeWhile_dropWhile_append (p := isBlank) (s := before)
    (t := digits ++ (after ++ ']' :: rest)) hBefore
    (by simp [hCons, isBlank_of_isDigit hDigit])
  -- the digits end at a blank or at the bracket
  have hStop : ∀ c ∈ (after ++ ']' :: rest).head?, c.isDigit = false := by
    cases after with
    | nil => simp
    | cons b after => simpa using isDigit_of_isBlank (hAfter b List.mem_cons_self)
  obtain ⟨hTakeDigits, hDropDigits⟩ := takeWhile_dropWhile_append hDigits hStop
  have hOpening : opening? ('[' :: (before ++ (digits ++ (after ++ ']' :: rest)))) =
      some .numericBracket := by
    simp only [opening?, hDropBefore]
    simp [hCons, isQuote_of_isDigit hDigit, hDigit]
  rw [undotted?, hOpening]
  simp [numericBracket?, hTakeBefore, hDropBefore, hTakeDigits, hDropDigits, hClosing, hNil]

theorem token?_dot (s : List Char) :
    token? ('.' :: s) = (undotted? s).map fun x => { x with source := '.' :: x.source } := by
  rw [token?]

theorem token?_eq_undotted {s : List Char} (h : s.head? ≠ some '.') : token? s = undotted? s := by
  rw [token?.eq_def]
  split
  · simp at h
  · rfl

/-- A plain text is a token up to where no bare token goes on. -/
theorem token?_bare {text rest : List Char} (hNil : text ≠ [])
    (hText : ∀ c ∈ text, isMeta c = false) (hRest : EndsBare rest) :
    token? (text ++ rest) = some ⟨text, text, rest⟩ := by
  rw [token?_eq_undotted, undotted?_bare hNil hText hRest]
  obtain ⟨c, tail, rfl⟩ := List.exists_cons_of_ne_nil hNil
  intro hDot
  have hPlain := hText c List.mem_cons_self
  rw [List.cons_append, List.head?_cons, Option.some_inj] at hDot
  simp [hDot, isMeta] at hPlain

/-! ## Whole expressions -/

theorem segments_nil : segments [] = [] := by
  rw [segments]
  rfl

theorem segments_token {s : List Char} {x : Lexeme} (h : token? s = some x) :
    segments s = .token x.source x.text :: segments x.rest := by
  rw [segments.eq_def]
  split
  · simp_all
  · simp_all

theorem segments_skip {c : Char} {s : List Char} (h : token? (c :: s) = none) :
    segments (c :: s) = .skipped c :: segments s := by
  rw [segments]
  split
  · simp_all
  · rfl

/-- A text without a point or bracket is one token. -/
theorem segments_plain {s : List Char} (hNil : s ≠ []) (hPlain : ∀ c ∈ s, isMeta c = false) :
    segments s = [.token s s] := by
  have hToken := token?_bare hNil hPlain endsBare_nil
  rw [List.append_nil] at hToken
  rw [segments_token hToken, segments_nil]

/-- An expression that is not blank reads as its segments say. -/
theorem read_of_not_blank {expr : String} (hBlank : Text.isBlankText expr = false) :
    read expr = ⟨(segments expr.toList).filterMap Segment.text?,
      recoveries 0 (segments expr.toList)⟩ := by
  rw [read, if_neg (by simp [hBlank])]
  simp only
  split
  -- an expression without points and brackets has a token, for it is not empty
  · rename_i hWhole
    simp only [Bool.and_eq_true, Bool.not_eq_true', List.any_eq_false, Bool.not_eq_true] at hWhole
    have hNil := Text.toList_ne_nil_of_not_blank hBlank
    rw [segments_plain hNil hWhole.2] at hWhole
    simp [Segment.text?] at hWhole
  · rfl

end DocGraph.Path
