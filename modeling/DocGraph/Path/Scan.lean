import DocGraph.Text.Blank

/-!
# DocGraph: scanning path expressions

An expression names a place in a document by a list of tokens. A token is written bare, after an
optional point; as digits in brackets; or in quotes in brackets, where points, brackets and the
other quote stand for themselves. Scanning never fails: where no token starts, one character is
skipped and reported.

* `length_rest_lt`: every token uses up text, so scanning ends.
-/

namespace DocGraph.Path

open Text (isBlank)

/-- The characters that cannot stand in a bare token. -/
def isMeta (c : Char) : Bool :=
  c == '.' || c == '[' || c == ']'

def isQuote (c : Char) : Bool :=
  c == '\'' || c == '"'

/-- What the text at some place opens with. -/
inductive Opening where
  | separator
  | quotedBracket
  | numericBracket
  | bareToken
deriving DecidableEq

/-- Looks ahead past the blanks behind a bracket; decides nothing about its end. -/
def opening? : List Char → Option Opening
  | [] => none
  | '.' :: _ => some .separator
  | ']' :: _ => none
  | '[' :: rest =>
    match rest.dropWhile isBlank with
    | [] => none
    | c :: _ =>
      if isQuote c then some .quotedBracket
      else if c.isDigit then some .numericBracket
      else none
  | _ :: _ => some .bareToken

/-- A token cut off the front of a text: `source ++ rest` is that text. -/
structure Lexeme where
  source : List Char
  text : List Char
  rest : List Char

/-! ## The three spellings of a token -/

/-- The blanks up to a closing bracket, the bracket included, and the text behind it. -/
def closing? (s : List Char) : Option (List Char × List Char) :=
  match s.dropWhile isBlank with
  | ']' :: rest => some (s.takeWhile isBlank ++ [']'], rest)
  | _ => none

/-- Quoted text ends at the first `quote` that blanks and a closing bracket follow. -/
def quoted? (quote : Char) : List Char → Option Lexeme
  | [] => none
  | c :: s =>
    match if c = quote then closing? s else none with
    | some (close, rest) => some ⟨c :: close, [], rest⟩
    | none => (quoted? quote s).map fun x => { x with source := c :: x.source, text := c :: x.text }

def quotedBracket? : List Char → Option Lexeme
  | '[' :: s =>
    match s.dropWhile isBlank with
    | quote :: body =>
      (quoted? quote body).map fun x =>
        { x with source := '[' :: s.takeWhile isBlank ++ quote :: x.source }
    | [] => none
  | _ => none

def numericBracket? : List Char → Option Lexeme
  | '[' :: s =>
    let body := s.dropWhile isBlank
    let digits := body.takeWhile Char.isDigit
    if digits.isEmpty then none
    else (closing? (body.dropWhile Char.isDigit)).map fun (close, rest) =>
      ⟨'[' :: s.takeWhile isBlank ++ digits ++ close, digits, rest⟩
  | _ => none

def bareToken (s : List Char) : Lexeme :=
  let text := s.takeWhile fun c => !isMeta c
  ⟨text, text, s.dropWhile fun c => !isMeta c⟩

/-- A token without a point in front of it. -/
def undotted? (s : List Char) : Option Lexeme :=
  match opening? s with
  | some .quotedBracket => quotedBracket? s
  | some .numericBracket => numericBracket? s
  | some .bareToken => some (bareToken s)
  | some .separator => none
  | none => none

/-- The token at the front of a text, if one starts there. -/
def token? : List Char → Option Lexeme
  | '.' :: s => (undotted? s).map fun x => { x with source := '.' :: x.source }
  | s => undotted? s

/-! ## Every token uses up text -/

theorem length_dropWhile_le (p : Char → Bool) (s : List Char) :
    (s.dropWhile p).length ≤ s.length :=
  (List.dropWhile_suffix p).length_le

theorem length_closing_lt {s close rest : List Char} (h : closing? s = some (close, rest)) :
    rest.length < s.length := by
  unfold closing? at h
  have := length_dropWhile_le isBlank s
  split at h
  · rename_i r hr
    simp only [Option.some.injEq, Prod.mk.injEq] at h
    rw [hr, List.length_cons, h.2] at this
    omega
  · simp at h

theorem length_quoted_lt {quote : Char} {s : List Char} {x : Lexeme}
    (h : quoted? quote s = some x) : x.rest.length < s.length := by
  induction s generalizing x with
  | nil => simp [quoted?] at h
  | cons c s ih =>
    rw [quoted?] at h
    split at h
    -- the closing quote
    · rename_i close rest hc
      split at hc
      · have := length_closing_lt hc
        simp only [Option.some.injEq] at h
        subst h
        simp only [List.length_cons]
        omega
      · simp at hc
    -- a character of the text
    · obtain ⟨y, hy, rfl⟩ := Option.map_eq_some_iff.1 h
      have := ih hy
      simp only [List.length_cons]
      omega

theorem length_quotedBracket_lt {s : List Char} {x : Lexeme} (h : quotedBracket? s = some x) :
    x.rest.length < s.length := by
  unfold quotedBracket? at h
  split at h
  · rename_i s
    have hb := length_dropWhile_le isBlank s
    split at h
    · rename_i quote body hbody
      obtain ⟨y, hy, rfl⟩ := Option.map_eq_some_iff.1 h
      have := length_quoted_lt hy
      rw [hbody] at hb
      simp only [List.length_cons] at hb ⊢
      omega
    · simp at h
  · simp at h

theorem length_numericBracket_lt {s : List Char} {x : Lexeme} (h : numericBracket? s = some x) :
    x.rest.length < s.length := by
  unfold numericBracket? at h
  split at h
  · rename_i s
    simp only at h
    split at h
    · simp at h
    · obtain ⟨⟨close, rest⟩, hc, rfl⟩ := Option.map_eq_some_iff.1 h
      have h1 := length_closing_lt hc
      have h2 := length_dropWhile_le Char.isDigit (s.dropWhile isBlank)
      have h3 := length_dropWhile_le isBlank s
      simp only [List.length_cons]
      omega
  · simp at h

theorem length_bareToken_lt {s : List Char} (h : opening? s = some .bareToken) :
    (bareToken s).rest.length < s.length := by
  unfold opening? at h
  split at h
  · simp at h
  · simp at h
  · simp at h
  · split at h
    · simp at h
    · split at h
      · simp at h
      · split at h <;> simp at h
  · rename_i c s hdot hclose hopen
    -- the first character is none that ends the token
    have hm : isMeta c = false := by
      simp only [isMeta, Bool.or_eq_false_iff, beq_eq_false_iff_ne]
      exact ⟨⟨hdot, hopen⟩, hclose⟩
    have := length_dropWhile_le (fun c => !isMeta c) s
    simp only [bareToken, List.dropWhile_cons, hm, Bool.not_false, ↓reduceIte, List.length_cons]
    omega

theorem length_undotted_lt {s : List Char} {x : Lexeme} (h : undotted? s = some x) :
    x.rest.length < s.length := by
  unfold undotted? at h
  split at h
  · exact length_quotedBracket_lt h
  · exact length_numericBracket_lt h
  · rename_i ho
    cases h
    exact length_bareToken_lt ho
  · simp at h
  · simp at h

theorem length_rest_lt {s : List Char} {x : Lexeme} (h : token? s = some x) :
    x.rest.length < s.length := by
  unfold token? at h
  split at h
  · obtain ⟨y, hy, rfl⟩ := Option.map_eq_some_iff.1 h
    have := length_undotted_lt hy
    simp only [List.length_cons]
    omega
  -- no point in front
  · exact length_undotted_lt h

/-! ## Whole expressions -/

/-- A piece of an expression: the text of one token, or one character skipped. -/
inductive Segment where
  | token (source text : List Char)
  | skipped (c : Char)
deriving DecidableEq

def Segment.source : Segment → List Char
  | .token source _ => source
  | .skipped c => [c]

def Segment.text? : Segment → Option String
  | .token _ text => some (String.ofList text)
  | .skipped _ => none

/-- Cuts an expression into tokens and skipped characters. -/
def segments (s : List Char) : List Segment :=
  match _h : token? s with
  | some x => .token x.source x.text :: segments x.rest
  | none =>
    match s with
    | [] => []
    | c :: rest => .skipped c :: segments rest
termination_by s.length
decreasing_by
  · exact length_rest_lt _h
  · simp

/-- A character that no token starts at, and its place in the expression. -/
structure Recovery where
  position : Nat
  found : Char
deriving DecidableEq

def Recovery.text (r : Recovery) : String :=
  "no path token at position " ++ toString r.position ++ " (found '" ++ r.found.toString
    ++ "'), skipped one character"

/-- The skipped characters among segments of which the first starts at `position`. -/
def recoveries (position : Nat) : List Segment → List Recovery
  | [] => []
  | .token source _ :: rest => recoveries (position + source.length) rest
  | .skipped c :: rest => ⟨position, c⟩ :: recoveries (position + 1) rest

/-- The tokens of an expression and what was skipped on the way. -/
structure Outcome where
  tokens : List String
  recoveries : List Recovery
deriving DecidableEq

def Outcome.isClean (o : Outcome) : Bool :=
  o.recoveries.isEmpty

/-- Reads an expression. A blank one has no tokens; one that yields none although it holds no
point and no bracket is a token as a whole. -/
def read (expr : String) : Outcome :=
  if Text.isBlankText expr then ⟨[], []⟩
  else
    let parts := segments expr.toList
    let tokens := parts.filterMap Segment.text?
    if tokens.isEmpty && !expr.toList.any isMeta then ⟨[expr], recoveries 0 parts⟩
    else ⟨tokens, recoveries 0 parts⟩

/-- The tokens of an expression. -/
def parse (expr : String) : List String :=
  (read expr).tokens

/-- The tokens of an expression that may be missing. -/
def parseOptional (expr : Option String) : List String :=
  (expr.map parse).getD []

end DocGraph.Path
