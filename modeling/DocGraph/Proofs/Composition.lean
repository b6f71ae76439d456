import DocGraph.Path.Resolve
import DocGraph.Proofs.Grammar
import DocGraph.Proofs.PlainKey

/-!
# DocGraph: one path behind another

Two expressions with a point between them lead where the second leads from where the first leads.
For the tokens this needs that the first expression is read without skipping: then no text behind
it changes how it is cut, not even a quote that is closed much later. The point in between is taken
up by the first token of the second expression, or is skipped where no token starts; no token is
lost either way, whatever the second expression looks like.

* `texts_dot`: a point in front of a text changes none of its tokens.
* `evaluate_append` / `get_append`: following tokens is following some and then the rest.
* `get_dot_append`: the two together.
-/

namespace DocGraph.Path

/-! ## Tokens -/

/-- A point in front of a text is taken up by its first token, or skipped. -/
theorem texts_dot (s : List Char) :
    (segments ('.' :: s)).filterMap Segment.text? = (segments s).filterMap Segment.text? := by
  cases hUndotted : undotted? s with
  | none =>
    have hToken : token? ('.' :: s) = none := by
      rw [token?_dot, hUndotted]
      rfl
    rw [segments_skip hToken, List.filterMap_cons_none (by rfl)]
  | some x =>
    have hDotted : token? ('.' :: s) = some { x with source := '.' :: x.source } := by
      rw [token?_dot, hUndotted]
      rfl
    -- a token starts at `s`, so `s` has no point of its own in front
    obtain ⟨hSource, hSpelling⟩ := spelling_of_undotted hUndotted
    have hHead := hSpelling.head?_ne_dot x.rest
    rw [hSource] at hHead
    have hToken : token? s = some x := by rw [token?_eq_undotted hHead, hUndotted]
    rw [segments_token hDotted, segments_token hToken]
    rfl

theorem parse_of_not_blank {expr : String} (hBlank : Text.isBlankText expr = false) :
    parse expr = (segments expr.toList).filterMap Segment.text? := by
  rw [parse, read_of_not_blank hBlank]

theorem isTokens_of_clean {expr : String} (hBlank : Text.isBlankText expr = false)
    (hClean : (read expr).recoveries = []) : ∀ segment ∈ segments expr.toList, segment.IsToken := by
  rw [read_of_not_blank hBlank] at hClean
  exact recoveries_eq_nil_iff.1 hClean

theorem segments_ne_nil {s : List Char} (hNil : s ≠ []) : segments s ≠ [] := by
  obtain ⟨c, rest, rfl⟩ := List.exists_cons_of_ne_nil hNil
  cases hToken : token? (c :: rest) with
  | none => simp [segments_skip hToken]
  | some x => simp [segments_token hToken]

/-- Where nothing is skipped there is a token. -/
theorem parse_ne_nil {expr : String} (hBlank : Text.isBlankText expr = false)
    (hClean : (read expr).recoveries = []) : parse expr ≠ [] := by
  have hNil := Text.toList_ne_nil_of_not_blank hBlank
  obtain ⟨segment, hMem⟩ := List.exists_mem_of_ne_nil _ (segments_ne_nil hNil)
  have hToken := isTokens_of_clean hBlank hClean segment hMem
  rw [parse_of_not_blank hBlank]
  intro hTexts
  rw [Segment.IsToken, List.filterMap_eq_nil_iff.1 hTexts segment hMem] at hToken
  simp at hToken

theorem parse_dot {first second : String} (hFirst : Text.isBlankText first = false)
    (hClean : (read first).recoveries = []) (hSecond : Text.isBlankText second = false) :
    parse (first ++ "." ++ second) = parse first ++ parse second := by
  have hList : (first ++ "." ++ second).toList = first.toList ++ '.' :: second.toList := by
    simp [String.toList_append]
  have hBlank : Text.isBlankText (first ++ "." ++ second) = false :=
    isBlankText_eq_false (c := '.') (by simp [hList]) (by decide)
  rw [parse_of_not_blank hBlank, hList,
    segments_append (isTokens_of_clean hFirst hClean) (endsBare_cons (by decide)),
    List.filterMap_append, texts_dot, ← parse_of_not_blank hFirst, ← parse_of_not_blank hSecond]

/-! ## Lookups -/

theorem evaluate_of_ne_nil {h : Heap} {root : Value} {tokens : List String} (hNil : tokens ≠ []) :
    evaluate h root tokens = tokens.foldlM (step h) root := by
  rw [evaluate, if_neg (by simpa using hNil)]

theorem evaluate_append {h : Heap} {root : Value} {front back : List String} (hFront : front ≠ [])
    (hBack : back ≠ []) :
    evaluate h root (front ++ back) =
      (evaluate h root front).bind fun v => evaluate h v back := by
  have hBoth : front ++ back ≠ [] := by simp [hFront]
  rw [evaluate_of_ne_nil hBoth, evaluate_of_ne_nil hFront, List.foldlM_append]
  simp only [evaluate_of_ne_nil hBack]
  rfl

/-- No token leads on from where nothing is. -/
theorem evaluate_absent (h : Heap) (tokens : List String) : evaluate h .absent tokens = none := by
  cases tokens with
  | nil => rfl
  | cons token tokens => rfl

theorem get_eq (h : Heap) (root : Value) (place : Locator) :
    get h root place = (evaluate h root place.toTokens).getD .absent := by
  rw [get, resolve]
  cases evaluate h root place.toTokens with
  | none => rfl
  | some v => cases v <;> rfl

theorem get_append {h : Heap} {root : Value} {front back : List String} (hFront : front ≠ [])
    (hBack : back ≠ []) :
    get h root (.tokens (front ++ back)) = get h (get h root (.tokens front)) (.tokens back) := by
  simp only [get_eq, Locator.toTokens, evaluate_append hFront hBack]
  cases evaluate h root front with
  | none => simp [evaluate_absent]
  | some v => rfl

/-- If the first expression is read without skipping, the two with a point in between have the
tokens of the first and then those of the second, however that one is read. So they lead where the
second leads from where the first leads, if the second has a token at all. -/
theorem get_dot_append {first second : String} (hFirst : Text.isBlankText first = false)
    (hClean : (read first).recoveries = []) (hSecond : Text.isBlankText second = false) :
    parse (first ++ "." ++ second) = parse first ++ parse second ∧
      (parse second ≠ [] → ∀ (h : Heap) (root : Value),
        get h root (.expression (first ++ "." ++ second)) =
          get h (get h root (.expression first)) (.expression second)) := by
  have hTokens := parse_dot hFirst hClean hSecond
  refine ⟨hTokens, fun hSome h root => ?_⟩
  have hGet : ∀ (expr : String) (v : Value),
      get h v (.expression expr) = get h v (.tokens (parse expr)) := fun _ _ => rfl
  rw [hGet, hGet, hGet, hTokens, get_append (parse_ne_nil hFirst hClean) hSome]

/-- An object that holds itself. -/
def ringHeap : Heap where
  objects := #[.ofList [("self", .container (.object 0)), ("id", .null)]]
  arrays := #[]

theorem get_dot_append_ring :
    Text.isBlankText "['self']" = false ∧ (read "['self']").recoveries = [] ∧
      Text.isBlankText "].id" = false ∧ parse "].id" ≠ [] ∧
      parse ("['self']" ++ "." ++ "].id") = parse "['self']" ++ parse "].id" ∧
      get ringHeap (.container (.object 0)) (.expression ("['self']" ++ "." ++ "].id")) =
        get ringHeap (get ringHeap (.container (.object 0)) (.expression "['self']"))
          (.expression "].id") := by
  have hClean : (read "['self']").recoveries = [] := by decide +kernel
  have hSome : parse "].id" ≠ [] := by decide +kernel
  have hSecond : Text.isBlankText "].id" = false := by decide
  have hBoth := get_dot_append (by decide) hClean hSecond
  exact ⟨by decide, hClean, hSecond, hSome, hBoth.1, hBoth.2 hSome _ _⟩

end DocGraph.Path
