import DocGraph.Command.Session
import DocGraph.Proofs.Loading
import DocGraph.Proofs.Resolution

/-!
# DocGraph: what the exit status tells

A command looks at its arguments, reads a document and answers from it, and it may stop early at any
of these. `Answerable` says of each command when there is an answer, in terms of what the document
is and not of how it is searched. The exit status is 0 exactly then, and exactly then one text is
printed, the answer. Otherwise nothing is printed at all.

A value that is found is always shown, as no absent value occurs in a document that was decoded. So
`get` finds nothing only if the path leads nowhere and no fallback is given.

* `isPrinted_answerGet`, `isPrinted_answerKey`, `isPrinted_answerValue`: when a document has an
  answer.
* `isPrinted_run`: a command ends with an answer exactly if there is one.
* `exitStatus_exact`: the exit status and what is printed, over all command lines.
-/

namespace DocGraph

/-- The command has ended with an answer. -/
def Outcome.isPrinted : Outcome → Bool
  | .printed _ => true
  | .notFound => false
  | .failed _ => false

namespace Command

/-- The document of the source is `root`, on the heap `k`; it has been placed behind `h`. -/
def Reads (env : Environment) (h : Heap) (source : Source) (root : Value) (k : Heap) : Prop :=
  (load env h source).2 = .ok (root, k)

/-- There is an answer to the command: its arguments are well-formed, its document can be loaded,
and there is in it what is asked for. -/
def Answerable (env : Environment) (config : Config) : Command → Prop
  | .tokens _ => True
  | .get source path fallback =>
    ∃ v h root k, fallbackValue fallback = .ok (v, h) ∧ Reads env h source root k ∧
      (fallback.isSome = true ∨ (Path.evaluate k root (Path.parse path)).isSome = true)
  | .findKey source key _ =>
    ∃ root k, Reads env .empty source root k ∧ Text.isBlankText key = false ∧
      ∃ c, k.Meets root c ∧ (k.ownField c key).isSome = true
  | .findValue source value name =>
    ∃ comparator target h root k,
      Search.Comparator.ofName (name.getD config.comparator) = .ok comparator ∧
      parseJson .empty value = .ok (target, h) ∧ Reads env h source root k ∧
      ∃ c, k.Meets root c ∧ ∃ key v, (key, v) ∈ k.entries c ∧
        comparator.judge k v target = .accepted

variable {env : Environment} {config : Config} {h k : Heap} {source : Source} {root : Value}

/-! ## Documents -/

/-- What a command reads is a tree decoded. -/
theorem exists_load_of_reads (hReads : Reads env h source root k) :
    ∃ t : Decoded, t.load h = (root, k) := by
  unfold Reads load at hReads
  cases source with
  | standardInput => exact exists_load_of_loadInput hReads
  | file name =>
    dsimp only at hReads
    split at hReads
    · contradiction
    · exact exists_load_of_loadText hReads

theorem isPrinted_withDocument {answer : Heap → Value → Run} :
    (withDocument env h source answer).outcome.isPrinted = true ↔
      ∃ root k, Reads env h source root k ∧ (answer k root).outcome.isPrinted = true := by
  unfold withDocument Reads
  generalize load env h source = loaded
  obtain ⟨events, result⟩ := loaded
  cases result with
  | error e =>
    constructor
    · intro hPrinted
      contradiction
    · rintro ⟨root, k, hReads, -⟩
      contradiction
  | ok document =>
    obtain ⟨root, k⟩ := document
    constructor
    · intro hPrinted
      exact ⟨root, k, rfl, hPrinted⟩
    · rintro ⟨root', k', hReads, hPrinted⟩
      cases hReads
      exact hPrinted

/-! ## Answers -/

/-- Steps lead along a route. -/
theorem exists_route_of_steps {tokens : List String} {v : Value}
    (hSteps : tokens.foldlM (Path.step h) root = some v) : ∃ edges, h.Route root edges v := by
  induction tokens generalizing root with
  | nil =>
    cases hSteps
    exact ⟨[], .here _⟩
  | cons token tokens ih =>
    rw [List.foldlM_cons] at hSteps
    obtain ⟨w, hStep, hRest⟩ := Option.bind_eq_some_iff.1 hSteps
    rw [Path.step_eq] at hStep
    obtain ⟨c, hContainer, hOwn⟩ := Option.bind_eq_some_iff.1 hStep
    obtain rfl := Value.container?_eq_some_iff.1 hContainer
    obtain ⟨edges, hRoute⟩ := ih hRest
    exact ⟨_, .step (Search.mem_entries_keyIn hOwn) hRoute⟩

theorem exists_route_of_evaluate {tokens : List String} {v : Value}
    (hPath : Path.evaluate h root tokens = some v) : ∃ edges, h.Route root edges v := by
  unfold Path.evaluate at hPath
  split at hPath
  · contradiction
  · exact exists_route_of_steps hPath

/-- There is no fallback exactly if its value is absent. -/
theorem isAbsent_fallbackValue {fallback : Option String} {v : Value}
    (hFallback : fallbackValue fallback = .ok (v, h)) :
    v.isAbsent = false ↔ fallback.isSome = true := by
  cases fallback with
  | none =>
    cases hFallback
    decide
  | some text =>
    have hParse : parseDocument .empty .json text = .ok (v, h) := hFallback
    obtain ⟨t, hTree⟩ := exists_load_of_parseDocument hParse
    have hPresent := Decoded.isAbsent_eq_false hTree (.here v)
    exact ⟨fun _ => rfl, fun _ => hPresent⟩

theorem isPrinted_answerGet {t : Decoded} (hTree : t.load h = (root, k)) {path : String}
    {fallback : Option String} {v : Value} (hFallback : fallbackValue fallback = .ok (v, h)) :
    (answerGet path v k root).outcome.isPrinted = true ↔
      fallback.isSome = true ∨ (Path.evaluate k root (Path.parse path)).isSome = true := by
  have hPrinted : (answerGet path v k root).outcome.isPrinted = true ↔
      (Path.resolve k root (.expression path) v).isAbsent = false := by
    unfold answerGet
    dsimp only
    split
    · rename_i hAbsent
      rw [hAbsent]
      exact ⟨fun h => absurd h Bool.false_ne_true, fun h => absurd h Bool.false_ne_true.symm⟩
    · rename_i hPresent
      exact ⟨fun _ => Bool.eq_false_iff.2 hPresent, fun _ => rfl⟩
  rw [hPrinted, ← isAbsent_fallbackValue hFallback]
  show (Path.resolve k root (.expression path) v).isAbsent = false ↔ _
  unfold Path.resolve Path.Locator.toTokens
  dsimp only
  cases hPath : Path.evaluate k root (Path.parse path) with
  | none => simp
  | some found =>
    obtain ⟨edges, hRoute⟩ := exists_route_of_evaluate hPath
    have hPresent := Decoded.isAbsent_eq_false hTree hRoute
    simp [hPresent]

theorem isPrinted_answerKey {key : String} {withPath : Bool} :
    (answerKey key withPath k root).outcome.isPrinted = true ↔
      Text.isBlankText key = false ∧ ∃ c, k.Meets root c ∧ (k.ownField c key).isSome = true := by
  cases hBlank : Text.isBlankText key with
  | true =>
    have hError : Search.findKey k root key = .error .blankKey := by
      rw [Search.findKey, if_pos hBlank]
    rw [answerKey, hError]
    exact ⟨fun h => absurd h Bool.false_ne_true, fun h => absurd h.1 Bool.false_ne_true.symm⟩
  | false =>
    have hRun : ∃ outcome, Search.findKey k root key = .ok outcome := by
      rw [Search.findKey, hBlank]
      exact ⟨_, rfl⟩
    obtain ⟨outcome, hOutcome⟩ := hRun
    have hMatch : Search.findKeyMatch k root key =
        .ok (outcome.bind Search.KeyOutcome.found) := by
      rw [Search.findKeyMatch, hOutcome]
      rfl
    have hNone := Search.findKeyMatch_none_iff (h := k) (v := root) hBlank
    rw [hMatch, Except.ok.injEq] at hNone
    rw [answerKey, hOutcome]
    dsimp only
    cases hFound : outcome.bind Search.KeyOutcome.found with
    | none =>
      constructor
      · intro hPrinted
        contradiction
      · rintro ⟨-, c, hMeets, hOwn⟩
        rw [hNone.1 hFound c hMeets] at hOwn
        contradiction
    | some found =>
      refine ⟨fun _ => ⟨rfl, ?_⟩, fun _ => rfl⟩
      -- otherwise nothing would have been found
      by_contra hOwnerless
      have hAll : ∀ c, k.Meets root c → k.ownField c key = none := by
        intro c hMeets
        by_contra hOwn
        exact hOwnerless ⟨c, hMeets, Option.isSome_iff_ne_none.2 hOwn⟩
      rw [hNone.2 hAll] at hFound
      contradiction

theorem isPrinted_answerValue {comparator : Search.Comparator} {target : Value} :
    (answerValue comparator target k root).outcome.isPrinted = true ↔
      ∃ c, k.Meets root c ∧ ∃ key v, (key, v) ∈ k.entries c ∧
        comparator.judge k v target = .accepted := by
  have hPrinted : (answerValue comparator target k root).outcome.isPrinted = true ↔
      (Search.findValueReport k root target comparator).paths ≠ [] := by
    unfold answerValue Search.findValueReport
    cases Search.findValue? k root target comparator with
    | none => simp [Outcome.isPrinted, Search.Report.empty]
    | some sweep =>
      simp only [Option.map_some, Option.getD_some]
      cases sweep.report.paths with
      | nil => simp [Outcome.isPrinted]
      | cons path paths => simp [Outcome.isPrinted]
  have hPaths : (Search.findValueReport k root target comparator).paths ≠ [] ↔
      ∃ e ∈ Search.compared k root, comparator.judge k e.value target = .accepted := by
    rw [Search.findValueReport_eq_compared, Search.Report.ofCandidates]
    simp
  rw [hPrinted, hPaths]
  exact Search.exists_compared_iff (p := fun v => comparator.judge k v target = .accepted)

/-! ## Commands -/

theorem isPrinted_get (path : String) (fallback : Option String) :
    (run env config (.get source path fallback)).outcome.isPrinted = true ↔
      Answerable env config (.get source path fallback) := by
  rw [run, Answerable]
  cases hFallback : fallbackValue fallback with
  | error e =>
    constructor
    · intro hPrinted
      contradiction
    · rintro ⟨v, h, root, k, hValue, -⟩
      contradiction
  | ok result =>
    obtain ⟨v, h⟩ := result
    show (withDocument env h source (answerGet path v)).outcome.isPrinted = true ↔ _
    rw [isPrinted_withDocument]
    constructor
    · rintro ⟨root, k, hReads, hPrinted⟩
      obtain ⟨t, hTree⟩ := exists_load_of_reads hReads
      exact ⟨v, h, root, k, rfl, hReads, (isPrinted_answerGet hTree hFallback).1 hPrinted⟩
    · rintro ⟨v', h', root, k, hValue, hReads, hAnswer⟩
      cases hValue
      obtain ⟨t, hTree⟩ := exists_load_of_reads hReads
      exact ⟨root, k, hReads, (isPrinted_answerGet hTree hFallback).2 hAnswer⟩

theorem isPrinted_findKey (key : String) (withPath : Bool) :
    (run env config (.findKey source key withPath)).outcome.isPrinted = true ↔
      Answerable env config (.findKey source key withPath) := by
  rw [run, Answerable, isPrinted_withDocument]
  simp only [isPrinted_answerKey]

theorem isPrinted_findValue (value : String) (name : Option String) :
    (run env config (.findValue source value name)).outcome.isPrinted = true ↔
      Answerable env config (.findValue source value name) := by
  rw [run, Answerable]
  cases hName : Search.Comparator.ofName (name.getD config.comparator) with
  | error e =>
    constructor
    · intro hPrinted
      contradiction
    · rintro ⟨comparator, target, h, root, k, hComparator, -⟩
      contradiction
  | ok comparator =>
    cases hTarget : parseJson .empty value with
    | error e =>
      constructor
      · intro hPrinted
        contradiction
      · rintro ⟨comparator', target, h, root, k, -, hParse, -⟩
        contradiction
    | ok result =>
      obtain ⟨target, h⟩ := result
      show (withDocument env h source (answerValue comparator target)).outcome.isPrinted = true ↔ _
      rw [isPrinted_withDocument]
      constructor
      · rintro ⟨root, k, hReads, hPrinted⟩
        have hAnswer := isPrinted_answerValue.1 hPrinted
        exact ⟨comparator, target, h, root, k, rfl, rfl, hReads, hAnswer⟩
      · rintro ⟨comparator', target', h', root, k, hComparator, hParse, hReads, hAnswer⟩
        cases hComparator
        cases hParse
        exact ⟨root, k, hReads, isPrinted_answerValue.2 hAnswer⟩

/-- A command ends with an answer exactly if there is one. -/
theorem isPrinted_run (env : Environment) (config : Config) (command : Command) :
    (command.run env config).outcome.isPrinted = true ↔ command.Answerable env config := by
  cases command with
  | tokens expr => exact ⟨fun _ => trivial, fun _ => rfl⟩
  | get source path fallback => exact isPrinted_get path fallback
  | findKey source key withPath => exact isPrinted_findKey key withPath
  | findValue source value name => exact isPrinted_findValue value name

end Command

/-! ## The exit status -/

namespace Session

/-- The exit status tells whether a text is printed: one if it is 0, and none otherwise. -/
def Agrees (session : Session) : Prop :=
  (session.status = 0 ∧ ∃ text, session.printed = [text]) ∨
    (session.status ≠ 0 ∧ session.printed = [])

theorem agrees_ofOutcome (format : Format) (isPretty : Bool) (log : List Log.Event)
    (outcome : Outcome) : (ofOutcome format isPretty log outcome).Agrees := by
  cases outcome with
  | printed tree => exact .inl ⟨rfl, _, rfl⟩
  | notFound => exact .inr ⟨Nat.one_ne_zero, rfl⟩
  | failed cause => exact .inr ⟨Nat.one_ne_zero, rfl⟩

/-- The status is 0 if a command has ended with an answer, whose text is then printed. -/
theorem status_ofOutcome_iff (format : Format) (isPretty : Bool) (log : List Log.Event)
    (outcome : Outcome) :
    ((ofOutcome format isPretty log outcome).status = 0 ↔ outcome.isPrinted = true) ∧
    ((ofOutcome format isPretty log outcome).status = 0 →
      ∃ tree, outcome = .printed tree ∧
        (ofOutcome format isPretty log outcome).printed = [tree.print format isPretty]) := by
  cases outcome with
  | printed tree => exact ⟨⟨fun _ => rfl, fun _ => rfl⟩, fun _ => ⟨tree, rfl, rfl⟩⟩
  | notFound =>
    have hFailed : ¬ (ofOutcome format isPretty log .notFound).status = 0 := Nat.one_ne_zero
    exact ⟨⟨fun h => absurd h hFailed, fun h => absurd h Bool.false_ne_true⟩,
      fun h => absurd h hFailed⟩
  | failed cause =>
    have hFailed : ¬ (ofOutcome format isPretty log (.failed cause)).status = 0 := Nat.one_ne_zero
    exact ⟨⟨fun h => absurd h hFailed, fun h => absurd h Bool.false_ne_true⟩,
      fun h => absurd h hFailed⟩

/-- Every run of the program prints one text and ends with 0, or prints nothing and ends with
another status. A command ends with 0 exactly if there is an answer to it, under the settings of the
file, and the text is that of the answer in the format asked for. -/
theorem exitStatus_exact (env : Environment) (configFile : FileEntry) (args : List String) :
    (ofArguments env configFile args).Agrees ∧
    ∀ command format verbosity,
      Request.ofArguments? args = some (.command command format verbosity) →
        ((ofArguments env configFile args).status = 0 ↔
          command.Answerable env (settings configFile).1) ∧
        ((ofArguments env configFile args).status = 0 →
          ∃ tree, (command.run env (settings configFile).1).outcome = .printed tree ∧
            (ofArguments env configFile args).printed =
              [tree.print (format.getD (defaultFormat (settings configFile).1))
                (settings configFile).1.pretty]) := by
  constructor
  · unfold ofArguments
    cases Request.ofArguments? args with
    | none => exact .inr ⟨Nat.succ_ne_zero 1, rfl⟩
    | some request =>
      cases request with
      | version => exact .inl ⟨rfl, _, rfl⟩
      | command command format verbosity => exact agrees_ofOutcome _ _ _ _
  · intro command format verbosity hArguments
    have hSession : ofArguments env configFile args =
        ofRequest env configFile (.command command format verbosity) := by
      rw [ofArguments, hArguments]
    rw [hSession, ofRequest, ← Command.isPrinted_run]
    exact status_ofOutcome_iff _ _ _ _

/-- Every file holds the text `[1]`. -/
def onesEnvironment : Environment where
  standardInput := []
  file := fun _ => .file (utf8Bytes "[1]")

theorem reads_onesEnvironment : Command.Reads onesEnvironment .empty (.file "a.json")
    (.container (.array 0)) ⟨#[], #[[.number (.integer 1)]]⟩ := by
  have hRead : (onesEnvironment.file "a.json").read "a.json" = .ok "[1]" :=
    read_utf8Bytes (by decide) "[1]"
  have hFormat : FileName.format "a.json" = .json := by decide
  have hParse : Json.parse? "[1]" = some (.array [.number (.integer 1)]) := by cbv
  rw [Command.Reads, Command.load, hRead]
  show loadText .empty "a.json" "[1]" = _
  rw [loadText, hFormat, parseDocument, parseJson, hParse]
  rfl

theorem exitStatus_exact_ones :
    Request.ofArguments? ["get", "a.json", "[0]"] =
      some (.command (.get (.file "a.json") "[0]" none) none 0) ∧
    (ofArguments onesEnvironment .missing ["get", "a.json", "[0]"]).status = 0 ∧
    (ofArguments onesEnvironment .missing ["get", "a.json", "[0]"]).Agrees ∧
    (ofArguments onesEnvironment .missing ["get", "a.json", "[1]"]).status ≠ 0 := by
  have hArguments : Request.ofArguments? ["get", "a.json", "[0]"] =
      some (.command (.get (.file "a.json") "[0]" none) none 0) := by decide
  have hArguments' : Request.ofArguments? ["get", "a.json", "[1]"] =
      some (.command (.get (.file "a.json") "[1]" none) none 0) := by decide
  obtain ⟨hAgrees, hGet⟩ := exitStatus_exact onesEnvironment .missing ["get", "a.json", "[0]"]
  obtain ⟨-, hGet'⟩ := exitStatus_exact onesEnvironment .missing ["get", "a.json", "[1]"]
  refine ⟨hArguments, ?_, hAgrees, ?_⟩
  · have hFound : (Path.evaluate ⟨#[], #[[.number (.integer 1)]]⟩ (.container (.array 0))
        (Path.parse "[0]")).isSome = true := by cbv
    exact (hGet _ _ _ hArguments).1.2
      ⟨.absent, .empty, _, _, rfl, reads_onesEnvironment, .inr hFound⟩
  · intro hZero
    obtain ⟨v, h, root, k, hFallback, hReads, hAnswer⟩ := (hGet' _ _ _ hArguments').1.1 hZero
    cases hFallback
    have hSame := hReads.symm.trans reads_onesEnvironment
    cases hSame
    have hMissing : Path.evaluate ⟨#[], #[[.number (.integer 1)]]⟩ (.container (.array 0))
        (Path.parse "[1]") = none := by cbv
    rw [hMissing] at hAnswer
    rcases hAnswer with hDefault | hFound
    · contradiction
    · contradiction

end Session

end DocGraph
