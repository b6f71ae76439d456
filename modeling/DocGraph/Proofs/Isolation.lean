import DocGraph.Proofs.Tour
import Mathlib

/-!
# DocGraph: a comparator never steers a search

A search for a value asks its comparator about each candidate and goes on in the same way whatever
the answer is, even if there is none. So there is one list of candidates, each with its path, that
depends on the graph and the root alone, and every search reads its report off this list: its paths
are those of the candidates accepted, its faults those of the candidates on which the comparator
failed or broke off. Any two searches from one root enter the same containers in the same order.

* `judge_lenient`: turning faults into rejections is possible for every comparator.
* `faults_ofCandidates`: each candidate without an answer leaves one fault, in order.
* `entered_sweep`: how many containers are entered, whatever is compared.
* `mem_candidates_of_container`: a candidate that is a container has its own children compared.
* `findValueReport_oblivious`: the report of every comparator read off one list, the edges below
  the root.
-/

namespace DocGraph.Search

/-! ## Comparators without faults -/

/-- The verdict of one who rejects what another gives no answer on. -/
def Verdict.lenient (v : Verdict) : Verdict :=
  if v.isFault then .rejected else v

theorem Verdict.lenient_eq_accepted_iff {v : Verdict} : v.lenient = .accepted ↔ v = .accepted := by
  cases v <;> simp [lenient, isFault]

theorem Verdict.fault?_lenient (v : Verdict) : v.lenient.fault? = none := by
  cases v <;> simp [lenient, isFault, fault?]

/-- The comparator with its faults turned into rejections. -/
def Comparator.lenient : Comparator → Comparator
  | .strict => .strict
  | .structural => .structural
  | .custom judge => .custom fun v w => (judge v w).lenient

theorem Comparator.judge_lenient (c : Comparator) (h : Heap) (v w : Value) :
    c.lenient.judge h v w = (c.judge h v w).lenient := by
  -- an answer by yes or no is no fault
  have hBool : ∀ b : Bool, (Verdict.ofBool b).lenient = .ofBool b := by
    intro b
    cases b <;> rfl
  cases c with
  | strict => exact (hBool _).symm
  | structural => exact (hBool _).symm
  | custom judge => rfl

/-! ## What is said of a candidate without an answer -/

/-- The verdict is no answer, and this is the message about it: the causes, the outermost first, or
the text that a comparator left when it broke off. -/
inductive Verdict.FaultsWith : Verdict → String → Prop
  | failed (causes : List String) : FaultsWith (.failed causes) (": ".intercalate causes)
  | panicked (text : String) : FaultsWith (.panicked (some text)) ("panicked: " ++ text)
  | mute : FaultsWith (.panicked none) "panicked: unknown panic payload"

theorem Verdict.fault?_eq_some_iff {v : Verdict} {message : String} :
    v.fault? = some message ↔ v.FaultsWith message := by
  constructor
  · intro hFault
    cases v with
    | accepted => cases hFault
    | rejected => cases hFault
    | failed causes => exact Option.some.inj hFault ▸ .failed causes
    | panicked payload =>
      cases payload with
      | none => exact Option.some.inj hFault ▸ .mute
      | some text => exact Option.some.inj hFault ▸ .panicked text
  · rintro (_ | _ | _) <;> rfl

theorem Verdict.fault?_eq_none_iff {v : Verdict} :
    v.fault? = none ↔ v ∈ [.accepted, .rejected] := by
  cases v <;> simp [fault?]

/-- A candidate neither accepted nor rejected leaves a fault under its path, and no other does. -/
theorem faults_ofCandidates (judge : Value → Verdict) (list : List Candidate) :
    List.Forall₂
      (fun (c : Candidate) (fault : Fault) =>
        fault.path = c.path ∧ (judge c.value).FaultsWith fault.message)
      (list.filter fun c => judge c.value ∉ [.accepted, .rejected])
      (Report.ofCandidates judge list).faults := by
  rw [Report.ofCandidates]
  induction list with
  | nil => exact .nil
  | cons c list ih =>
    cases hFault : (judge c.value).fault? with
    | none =>
      have hAnswer : judge c.value ∈ [.accepted, .rejected] := Verdict.fault?_eq_none_iff.1 hFault
      rw [List.filter_cons_of_neg (by simpa only [decide_eq_true_eq, not_not] using hAnswer),
        List.filterMap_cons_none (by rw [hFault]; rfl)]
      exact ih
    | some message =>
      have hNoAnswer : judge c.value ∉ [.accepted, .rejected] := by
        rw [← Verdict.fault?_eq_none_iff, hFault]
        exact Option.some_ne_none message
      rw [List.filter_cons_of_pos (by simpa only [decide_eq_true_eq] using hNoAnswer),
        List.filterMap_cons_some (by rw [hFault]; rfl)]
      exact .cons ⟨rfl, Verdict.fault?_eq_some_iff.1 hFault⟩ ih

/-! ## What is entered and compared -/

/-- A search enters the containers of its tour, whatever it compares. -/
theorem entered_sweep (h : Heap) (judge : Value → Verdict) (stack : List Stop)
    (visited : Visited) :
    (sweep h judge (stack.map Stop.place) visited).entered =
      visited.size + (tour h stack visited).length := by
  induction stack, visited using tour.induct h with
  | case1 visited => simp [sweep, tour]
  | case2 visited s rest hEnter ih =>
    rw [List.map_cons, Stop.place, sweep_skip hEnter, tour_skip hEnter]
    exact ih
  | case3 visited s rest visited' hEnter ih =>
    have hSize : visited'.size = visited.size + 1 := by
      rw [Visited.size, (Visited.enter?_eq_some_iff.1 hEnter).2]
      rfl
    rw [List.map_append, List.map_reverse, Stop.map_place_children] at ih
    rw [List.map_cons, Stop.place, entered_sweep_enter hEnter, ih, tour_enter hEnter,
      List.length_cons, hSize]
    omega

/-- The children of a candidate are candidates, under a path that leads to their owner. -/
theorem mem_candidates_of_container {h : Heap} {root : Container} {c : Candidate}
    (hc : c ∈ candidates h root) {d : Container} (hValue : c.value = .container d) {key : Key}
    {v : Value} (hEntry : (key, v) ∈ h.entries d) :
    ∃ w keys, h.Walk root w keys d ∧ ⟨keys, d, key, v⟩ ∈ candidates h root := by
  obtain ⟨hStop, hOwner⟩ := mem_candidates_iff.1 hc
  rw [hValue] at hOwner
  have hReach : h.Reaches root d := (reaches_iff_mem_tour.2 ⟨_, hStop, rfl⟩).child hOwner
  obtain ⟨s, hs, rfl⟩ := reaches_iff_mem_tour.1 hReach
  obtain ⟨w, hWalk⟩ := genuine_tour_root s hs
  exact ⟨w, s.keys, hWalk, mem_candidates_iff.2 ⟨hs, hEntry⟩⟩

/-! ## Reports read off one list -/

/-- Of every graph and root there is one list of candidates, one for each edge below the root, under
a walk to its owner, and every search reads its report off this list, whatever it looks for and
whatever its comparator does: its paths are those of the candidates accepted, in the order of the
list, and its faults are those of the candidates neither accepted nor rejected, in this order too,
each with its candidate's path and what the comparator left. So a comparator that rejects instead
of failing finds the same paths. Every search enters as many containers as can be reached, and a
container among the candidates has its children among them, also if the comparator fails on the
container itself. -/
theorem findValueReport_oblivious (h : Heap) (root : Container) :
    ∃ compared : List Candidate,
      (compared.map Candidate.edge).Nodup ∧
      (∀ e, e ∈ compared.map Candidate.edge ↔
        h.Reaches root e.1 ∧ ∃ v, (e.2, v) ∈ h.entries e.1) ∧
      (∀ c ∈ compared,
        (∃ w, h.Walk root w c.keys c.owner) ∧ (c.key, c.value) ∈ h.entries c.owner) ∧
      (∀ (target : Value) (comparator : Comparator),
        (findValueReport h (.container root) target comparator).paths =
          (compared.filter fun c => comparator.judge h c.value target = .accepted).map
            (fun c => Path.render (c.keys ++ [c.key])) ∧
        List.Forall₂
          (fun (c : Candidate) (fault : Fault) =>
            fault.path = Path.render (c.keys ++ [c.key]) ∧
              (comparator.judge h c.value target).FaultsWith fault.message)
          (compared.filter fun c => comparator.judge h c.value target ∉ [.accepted, .rejected])
          (findValueReport h (.container root) target comparator).faults ∧
        findValueReport h (.container root) target comparator.lenient =
          ⟨(findValueReport h (.container root) target comparator).paths, []⟩ ∧
        (findValue? h (.container root) target comparator).map Sweep.entered =
          some {d | h.Reaches root d}.ncard) ∧
      ∀ c ∈ compared, ∀ d, c.value = .container d → ∀ key v, (key, v) ∈ h.entries d →
        ∃ w keys, h.Walk root w keys d ∧ ⟨keys, d, key, v⟩ ∈ compared := by
  refine ⟨candidates h root, nodup_edges h root, fun e => mem_map_edge_candidates_iff,
    fun c hc => exists_walk_of_mem_candidates hc, fun target comparator => ⟨?_, ?_, ?_, ?_⟩,
    fun c hc d hValue key v hEntry => mem_candidates_of_container hc hValue hEntry⟩
  · rw [findValueReport_eq]
    rfl
  · rw [findValueReport_eq]
    exact faults_ofCandidates (comparator.judge h · target) (candidates h root)
  -- a verdict made lenient accepts the same and is never a fault
  · simp only [findValueReport_eq, Report.ofCandidates, Comparator.judge_lenient,
      Verdict.lenient_eq_accepted_iff, Verdict.fault?_lenient]
    simp
  · have hEntered := entered_sweep h (comparator.judge h · target) [⟨root, []⟩] .empty
    rw [findValue?, Value.container?, Option.map_map, Option.map_some, ← length_tour]
    exact congrArg some (hEntered.trans (Nat.zero_add _))

/-- An object and an array, each among the children of the other. -/
def crossedHeap : Heap where
  objects := #[.ofList [("list", .container (.array 0)), ("text", .text "x"), ("id", .null)]]
  arrays := #[[.null, .container (.object 0), .bool true]]

/-- A comparator that accepts null and faults in three ways. -/
def moody : Comparator :=
  .custom fun v _ =>
    match v with
    | .null => .accepted
    | .container (.array _) => .failed ["array", "not supported"]
    | .text text => .panicked (some text)
    | .bool _ => .panicked none
    | _ => .rejected

theorem findValueReport_oblivious_crossed :
    findValueReport crossedHeap (.container (.object 0)) .absent moody =
        ⟨["id", "list[0]"], [⟨"list", "array: not supported"⟩, ⟨"text", "panicked: x"⟩,
          ⟨"list[2]", "panicked: unknown panic payload"⟩]⟩ ∧
      findValueReport crossedHeap (.container (.object 0)) .absent moody.lenient =
        ⟨["id", "list[0]"], []⟩ ∧
      {d | crossedHeap.Reaches (.object 0) d}.ncard = 2 := by
  have hReport : findValueReport crossedHeap (.container (.object 0)) .absent moody =
      ⟨["id", "list[0]"], [⟨"list", "array: not supported"⟩, ⟨"text", "panicked: x"⟩,
        ⟨"list[2]", "panicked: unknown panic payload"⟩]⟩ := by cbv
  have hEntered : (findValue? crossedHeap (.container (.object 0)) .absent moody).map
      Sweep.entered = some 2 := by cbv
  obtain ⟨_, -, -, -, hReports, -⟩ := findValueReport_oblivious crossedHeap (.object 0)
  obtain ⟨-, -, hLenient, hReached⟩ := hReports .absent moody
  rw [hReport] at hLenient
  rw [hEntered] at hReached
  exact ⟨hReport, hLenient, (Option.some.inj hReached).symm⟩

end DocGraph.Search
