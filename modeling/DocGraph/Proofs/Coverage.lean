import DocGraph.Proofs.Quoting

/-!
# DocGraph: scanning accounts for every character

An expression is cut into segments, each the source of a token or one character that is skipped.
Whatever the expression is, its segments make up its text, so no failed attempt at a token loses
text or reads it twice, and since no segment is empty the scan ends. A character is skipped only
where no token starts: `StartsToken` says where one does, of the text alone. What stands between
quotes plays no part in it, for if there is any end to the quoted text there is a first one.

* `isSome_token?_iff`: the scanner finds a token exactly where one starts.
* `flatMap_source_segments` / `item_of_mem_segments`: the segments make up the text, and each token
  is spelled by its segment.
* `not_startsToken_of_split`: what stands at a skipped character.
* `recoveries_eq_skips`: recoveries are the skipped characters at their offsets, in order.
* `read_accounts`: all this of an expression that is read.
-/

namespace DocGraph.Path

open Text (isBlank)

/-! ## Where a token starts -/

/-- A text with which a token without a point starts, be it longer or shorter than the token. -/
inductive Opener : List Char → Prop
  | quoted {quote : Char} {before content after : List Char} :
      isQuote quote = true → (∀ c ∈ before, isBlank c = true) → (∀ c ∈ after, isBlank c = true) →
      Opener ('[' :: (before ++ quote :: (content ++ quote :: (after ++ [']']))))
  | numeric {before digits after : List Char} :
      digits ≠ [] → (∀ c ∈ digits, c.isDigit = true) → (∀ c ∈ before, isBlank c = true) →
      (∀ c ∈ after, isBlank c = true) → Opener ('[' :: (before ++ (digits ++ (after ++ [']']))))
  | bare {text : List Char} : text ≠ [] → (∀ c ∈ text, isMeta c = false) → Opener text

/-- The text begins with an opener, or with a point and an opener. -/
def StartsToken (s : List Char) : Prop :=
  ∃ front rest, front ++ rest = s ∧ (Opener front ∨ ∃ plain, front = '.' :: plain ∧ Opener plain)

theorem Spelling.opener {source text : List Char} (h : Spelling source text) : Opener source := by
  cases h with
  | quoted hQuote hBefore hAfter => exact .quoted hQuote hBefore hAfter
  | numeric hNil hDigits hBefore hAfter => exact .numeric hNil hDigits hBefore hAfter
  | bare hNil hText => exact .bare hNil hText

/-- Quoted text that ends somewhere is read up to its first end. -/
theorem isSome_undotted?_quoted {quote : Char} {before content after : List Char}
    (hQuote : isQuote quote = true) (hBefore : ∀ c ∈ before, isBlank c = true)
    (hAfter : ∀ c ∈ after, isBlank c = true) (rest : List Char) :
    (undotted? ('[' :: (before ++ quote :: (content ++ quote :: (after ++ ']' :: rest))))).isSome =
      true := by
  obtain ⟨-, hDrop⟩ := takeWhile_dropWhile_append (p := isBlank) (s := before)
    (t := quote :: (content ++ quote :: (after ++ ']' :: rest))) hBefore
    (by simp [isBlank_of_isQuote hQuote])
  have hOpening :
      opening? ('[' :: (before ++ quote :: (content ++ quote :: (after ++ ']' :: rest)))) =
        some .quotedBracket := by
    simp [opening?, hDrop, hQuote]
  have hQuoted := @isSome_quoted? quote content after rest hAfter
  rw [undotted?, hOpening]
  simp [quotedBracket?, hDrop, hQuoted]

theorem isSome_undotted?_opener {front : List Char} (h : Opener front) (rest : List Char) :
    (undotted? (front ++ rest)).isSome = true := by
  cases h with
  | quoted hQuote hBefore hAfter =>
    simpa using isSome_undotted?_quoted hQuote hBefore hAfter rest
  | numeric hNil hDigits hBefore hAfter =>
    have hToken := @undotted?_numeric _ _ _ rest hNil hDigits hBefore hAfter
    simp [hToken]
  | bare hNil hText =>
    obtain ⟨c, tail, rfl⟩ := List.exists_cons_of_ne_nil hNil
    rw [List.cons_append, undotted?, opening?_of_plain (hText c List.mem_cons_self)]
    rfl

/-- The scanner finds a token exactly where one starts. -/
theorem isSome_token?_iff {s : List Char} : (token? s).isSome = true ↔ StartsToken s := by
  constructor
  · intro hSome
    obtain ⟨x, hToken⟩ := Option.isSome_iff_exists.1 hSome
    obtain ⟨hSource, hItem⟩ := item_of_token hToken
    refine ⟨x.source, x.rest, hSource, ?_⟩
    generalize x.source = source at hItem
    cases hItem with
    | plain hSpelling => exact .inl hSpelling.opener
    | dotted hSpelling => exact .inr ⟨_, rfl, hSpelling.opener⟩
  · rintro ⟨front, rest, rfl, hOpener | ⟨plain, rfl, hOpener⟩⟩
    · have hUndotted := isSome_undotted?_opener hOpener rest
      rw [token?_eq_undotted]
      · exact hUndotted
      -- nothing is read undotted where a point stands
      · intro hDot
        obtain ⟨tail, hTail⟩ := List.head?_eq_some_iff.1 hDot
        rw [hTail] at hUndotted
        contradiction
    · rw [List.cons_append, token?_dot, Option.isSome_map]
      exact isSome_undotted?_opener hOpener rest

/-! ## The segments of a text -/

theorem Item.source_ne_nil {source text : List Char} (h : Item source text) : source ≠ [] := by
  cases h with
  | plain hSpelling =>
    rcases hSpelling.starts with ⟨tail, rfl⟩ | ⟨hNil, -⟩
    · simp
    · exact hNil
  | dotted => simp

theorem flatMap_source_segments (s : List Char) : (segments s).flatMap Segment.source = s := by
  induction s using segments.induct with
  | case1 s x hToken ih =>
    rw [segments_token hToken, List.flatMap_cons, ih, Segment.source, (item_of_token hToken).1]
  | case2 =>
    rw [segments_nil]
    rfl
  | case3 c rest hToken ih =>
    rw [segments_skip hToken, List.flatMap_cons, ih]
    rfl

theorem item_of_mem_segments {s source text : List Char}
    (hMem : .token source text ∈ segments s) : Item source text := by
  induction s using segments.induct with
  | case1 s x hToken ih =>
    rw [segments_token hToken] at hMem
    rcases List.mem_cons.1 hMem with hHead | hTail
    · cases hHead
      exact (item_of_token hToken).2
    · exact ih hTail
  | case2 =>
    rw [segments_nil] at hMem
    contradiction
  | case3 c rest hToken ih =>
    rw [segments_skip hToken] at hMem
    rcases List.mem_cons.1 hMem with hHead | hTail
    · contradiction
    · exact ih hTail

/-- At a skipped character the text behind the segments before it starts no token. -/
theorem not_startsToken_of_split {s : List Char} {front back : List Segment} {c : Char}
    (hSplit : segments s = front ++ .skipped c :: back) :
    ¬ StartsToken (c :: back.flatMap Segment.source) := by
  induction s using segments.induct generalizing front with
  | case1 s x hToken ih =>
    rw [segments_token hToken] at hSplit
    cases front with
    | nil => simp at hSplit
    | cons part front =>
      rw [List.cons_append, List.cons.injEq] at hSplit
      exact ih hSplit.2
  | case2 =>
    rw [segments_nil] at hSplit
    simp at hSplit
  | case3 d rest hToken ih =>
    rw [segments_skip hToken] at hSplit
    cases front with
    -- the character itself, and the rest of the text behind it
    | nil =>
      rw [List.nil_append, List.cons.injEq, Segment.skipped.injEq] at hSplit
      obtain ⟨rfl, rfl⟩ := hSplit
      rw [flatMap_source_segments, ← isSome_token?_iff, hToken]
      simp
    | cons part front =>
      rw [List.cons_append, List.cons.injEq] at hSplit
      exact ih hSplit.2

/-- Only the characters that no bare token can hold are skipped. -/
theorem isMeta_of_not_startsToken {c : Char} {rest : List Char}
    (h : ¬ StartsToken (c :: rest)) : isMeta c = true := by
  rw [← Bool.not_eq_false]
  intro hPlain
  exact h ⟨[c], rest, rfl, .inl (.bare (by simp) (by simp [hPlain]))⟩

/-! ## Recoveries -/

/-- The recovery at the `n`-th of some segments: where a character is skipped, that character and the
length of the text before it. -/
def recoveryAt (parts : List Segment) : Segment × Nat → Option Recovery
  | (.token _ _, _) => none
  | (.skipped c, n) => some ⟨((parts.take n).flatMap Segment.source).length, c⟩

/-- The recoveries at some segments, in their order. -/
def skips (parts : List Segment) : List Recovery :=
  parts.zipIdx.filterMap (recoveryAt parts)

theorem recoveries_eq_skips (parts : List Segment) : recoveries 0 parts = skips parts := by
  -- the segments in front of those that are left make up the text counted so far
  have hRest : ∀ front back : List Segment,
      recoveries (front.flatMap Segment.source).length back =
        (back.zipIdx front.length).filterMap (recoveryAt (front ++ back)) := by
    intro front back
    induction back generalizing front with
    | nil => rfl
    | cons part back ih =>
      have hNext := ih (front ++ [part])
      rw [List.length_append, List.append_assoc, List.flatMap_append, List.length_append,
        List.flatMap_singleton] at hNext
      rw [List.zipIdx_cons]
      cases part with
      | token source text =>
        rw [recoveries, List.filterMap_cons_none rfl]
        exact hNext
      | skipped c =>
        have hHere : recoveryAt (front ++ .skipped c :: back) (.skipped c, front.length) =
            some ⟨(front.flatMap Segment.source).length, c⟩ := by
          rw [recoveryAt, List.take_left]
        rw [recoveries, List.filterMap_cons_some hHere]
        exact congrArg _ hNext
  exact hRest [] parts

/-- A recovery stands at a skipped character, behind the text of the segments before it. -/
theorem exists_split_of_mem_skips {parts : List Segment} {r : Recovery} (hr : r ∈ skips parts) :
    ∃ front back, parts = front ++ .skipped r.found :: back ∧
      r.position = (front.flatMap Segment.source).length := by
  obtain ⟨⟨part, n⟩, hPart, hAt⟩ := List.mem_filterMap.1 hr
  rw [List.mem_zipIdx_iff_getElem?] at hPart
  cases part with
  | token source text => contradiction
  | skipped c =>
    cases hAt
    obtain ⟨hn, hGet⟩ : ∃ hn : n < parts.length, parts[n] = .skipped c :=
      List.getElem?_eq_some_iff.1 hPart
    refine ⟨parts.take n, parts.drop (n + 1), ?_, rfl⟩
    show parts = parts.take n ++ .skipped c :: parts.drop (n + 1)
    rw [← hGet, ← List.drop_eq_getElem_cons hn, List.take_append_drop]

/-! ## Expressions -/

/-- An expression is made up of segments, none of them empty. The tokens read are those of the
segments that spell one, and the recoveries stand at all others, both in the order of the segments.
What is skipped is the character at its place, a point or a bracket, and there no token starts. -/
structure Accounts (expr : List Char) (outcome : Outcome) (parts : List Segment) : Prop where
  whole : parts.flatMap Segment.source = expr
  nonempty : ∀ part ∈ parts, part.source ≠ []
  spelled : ∀ source text, .token source text ∈ parts → Item source text
  tokens : outcome.tokens = parts.filterMap Segment.text?
  recoveries : outcome.recoveries = skips parts
  skipped : ∀ r ∈ outcome.recoveries,
    expr[r.position]? = some r.found ∧ r.found ∈ ['.', '[', ']'] ∧
      ¬ StartsToken (expr.drop r.position)

/-- Reading an expression accounts for each of its characters. -/
theorem read_accounts {expr : String} (hBlank : Text.isBlankText expr = false) :
    Accounts expr.toList (read expr) (segments expr.toList) := by
  have hWhole := flatMap_source_segments expr.toList
  have hRead := read_of_not_blank hBlank
  have hRecoveries : (read expr).recoveries = skips (segments expr.toList) := by
    rw [hRead]
    exact recoveries_eq_skips _
  refine ⟨hWhole, ?nonempty, fun _ _ => item_of_mem_segments, ?tokens, hRecoveries, ?skipped⟩
  case nonempty =>
    intro part hPart
    cases part with
    | token source text => exact (item_of_mem_segments hPart).source_ne_nil
    | skipped c => exact List.cons_ne_nil c []
  case tokens => rw [hRead]
  case skipped =>
    intro r hr
    rw [hRecoveries] at hr
    obtain ⟨front, back, hSplit, hPosition⟩ := exists_split_of_mem_skips hr
    have hText : expr.toList =
        front.flatMap Segment.source ++ r.found :: back.flatMap Segment.source := by
      rw [← hWhole, hSplit, List.flatMap_append, List.flatMap_cons]
      rfl
    have hStarts := not_startsToken_of_split hSplit
    have hMeta := isMeta_of_not_startsToken hStarts
    rw [hText, hPosition, List.drop_left, List.getElem?_append_right (Nat.le_refl _), Nat.sub_self]
    refine ⟨rfl, ?_, hStarts⟩
    simpa [isMeta, or_assoc] using hMeta

/-- Two points in a row, and a quote that nothing closes. -/
theorem read_accounts_unterminated :
    Text.isBlankText "a..['b" = false ∧
      Accounts "a..['b".toList (read "a..['b") (segments "a..['b".toList) ∧
      segments "a..['b".toList =
        [.token ['a'] ['a'], .skipped '.', .skipped '.', .skipped '[',
          .token ['\'', 'b'] ['\'', 'b']] := by
  refine ⟨by decide, read_accounts (by decide), ?_⟩
  cbv

end DocGraph.Path
