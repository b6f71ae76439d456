import DocGraph.Proofs.Tour
import DocGraph.Search.Key
import Mathlib

/-!
# DocGraph: both searches end on every graph

The queue of the search for a name and the stack of the search for a value grow while a search
runs, and a container waits once for every edge that has led to it. Still each of their rounds uses
something up. A round takes one container from those that wait. If it has been entered before,
nothing else happens. If not, it is entered, and the containers among its children wait as well,
once for each edge; these edges are never followed again. So with each round there is one less of
what waits or will ever come to wait, whatever the graph, the order and the comparator.

`Run` tells a loop by its rounds, without a word on whether it ends. `Front` is what the two
searches have in common, and `Advances` what a round does to it.

* `KeyState.advances` / `ValueState.advances`: the rounds of the two searches.
* `Advances.left_eq`: a round uses up one of what is left, by cases on the round.
* `orderly_of_chain`: what follows for all rounds of a search, by induction on them.
* `exists_run_searchKey` / `exists_run_sweep`: the rounds lead to the results of the searches.
* `searches_end`: the two together.
-/

namespace DocGraph.Search

/-! ## Loops -/

/-- The rounds of a loop, by the states from which they start: each goes on from the next state, but
the last one ends with the result. -/
inductive Run {σ ρ : Type} (round : σ → ρ ⊕ σ) : List σ → ρ → Prop
  | stop {s : σ} {r : ρ} : round s = .inl r → Run round [s] r
  | turn {s t : σ} {states : List σ} {r : ρ} : round s = .inr t → Run round (t :: states) r →
      Run round (s :: t :: states) r

theorem Run.isChain {σ ρ : Type} {round : σ → ρ ⊕ σ} {R : σ → σ → Prop} {states : List σ} {r : ρ}
    (hRun : Run round states r) (hRound : ∀ s t, round s = .inr t → R s t) : states.IsChain R := by
  induction hRun with
  | stop => exact .singleton _
  | turn hTurn _ ih => exact .cons_cons (hRound _ _ hTurn) ih

/-- The search for a name between two rounds. -/
structure KeyState where
  queue : List Pending
  visited : Visited

namespace KeyState

def start (root : Container) : KeyState :=
  ⟨[⟨root, none, 0⟩], .empty⟩

/-- Takes the first container of the queue. One that has not been entered yet is entered, and ends
the search if it owns the name. -/
def round (h : Heap) (name : String) (s : KeyState) : KeyOutcome ⊕ KeyState :=
  match s.queue with
  | [] => .inl ⟨none, s.visited.size⟩
  | p :: rest =>
    match s.visited.enter? p.container with
    | none => .inr ⟨rest, s.visited⟩
    | some visited =>
      match h.ownField p.container name with
      | some v =>
        .inl ⟨some ⟨Path.child p.path (keyIn p.container name), p.depth, v⟩, visited.size⟩
      | none => .inr ⟨rest ++ p.children h, visited⟩

end KeyState

/-- The search for a value between two rounds. -/
structure ValueState where
  stack : List Place
  visited : Visited
  report : Report

namespace ValueState

def start (root : Container) : ValueState :=
  ⟨[(root, none)], .empty, .empty⟩

/-- Takes the container on top of the stack. One that has not been entered yet is entered, and its
children are compared. -/
def round (h : Heap) (judge : Value → Verdict) (s : ValueState) : Sweep ⊕ ValueState :=
  match s.stack with
  | [] => .inl ⟨s.report, s.visited.size⟩
  | (c, path) :: rest =>
    match s.visited.enter? c with
    | none => .inr ⟨rest, s.visited, s.report⟩
    | some visited =>
      .inr ⟨(inner path (h.entries c)).reverse ++ rest, visited,
        s.report ++ examine judge path (h.entries c)⟩

end ValueState

/-! ## What a round does -/

/-- What both searches go by: the containers that wait, and those that have been entered. -/
structure Front where
  waiting : List Container
  visited : Visited

def KeyState.front (s : KeyState) : Front :=
  ⟨s.queue.map Pending.container, s.visited⟩

def ValueState.front (s : ValueState) : Front :=
  ⟨s.stack.map Prod.fst, s.visited⟩

/-- The containers among the children of a container, one for each edge that leads to them. -/
def nested (h : Heap) (c : Container) : List Container :=
  (h.entries c).filterMap fun (_, v) => v.container?

/-- What a round does that does not end the search. -/
inductive Advances (h : Heap) : Front → Front → Prop
  /-- The container has been entered before and is dropped. -/
  | drop {c : Container} {rest : List Container} {visited : Visited} : c ∈ visited.entered →
      Advances h ⟨c :: rest, visited⟩ ⟨rest, visited⟩
  /-- The container is entered for the first time, and those among its children wait with the
  others. -/
  | enter {c : Container} {rest waiting : List Container} {visited visited' : Visited} :
      c ∉ visited.entered → visited'.entered = c :: visited.entered →
      waiting.Perm (nested h c ++ rest) → Advances h ⟨c :: rest, visited⟩ ⟨waiting, visited'⟩

theorem map_container_children (h : Heap) (p : Pending) :
    (p.children h).map Pending.container = nested h p.container := by
  rw [Pending.children, List.map_filterMap, nested]
  congr 1
  funext e
  simp [Function.comp_def]

theorem map_fst_inner (h : Heap) (path : Option String) (c : Container) :
    (inner path (h.entries c)).map Prod.fst = nested h c := by
  rw [inner, List.map_filterMap, nested]
  congr 1
  funext e
  simp [Function.comp_def]

theorem KeyState.advances {h : Heap} {name : String} {s t : KeyState}
    (hRound : s.round h name = .inr t) : Advances h s.front t.front := by
  obtain ⟨queue, visited⟩ := s
  cases queue with
  | nil => cases hRound
  | cons p rest =>
    rw [round] at hRound
    cases hEnter : visited.enter? p.container with
    | none =>
      simp only [hEnter] at hRound
      cases hRound
      exact .drop (Visited.enter?_eq_none_iff.1 hEnter)
    | some visited' =>
      obtain ⟨hNew, hEntered⟩ := Visited.enter?_eq_some_iff.1 hEnter
      cases hOwn : h.ownField p.container name with
      | some v => simp [hEnter, hOwn] at hRound
      | none =>
        simp only [hEnter, hOwn] at hRound
        cases hRound
        refine .enter hNew hEntered ?_
        -- the children wait behind the others; what is left does not depend on the order
        rw [List.map_append, map_container_children]
        exact List.perm_append_comm

theorem ValueState.advances {h : Heap} {judge : Value → Verdict} {s t : ValueState}
    (hRound : s.round h judge = .inr t) : Advances h s.front t.front := by
  obtain ⟨stack, visited, report⟩ := s
  cases stack with
  | nil => cases hRound
  | cons place rest =>
    obtain ⟨c, path⟩ := place
    rw [round] at hRound
    cases hEnter : visited.enter? c with
    | none =>
      simp only [hEnter] at hRound
      cases hRound
      exact .drop (Visited.enter?_eq_none_iff.1 hEnter)
    | some visited' =>
      obtain ⟨hNew, hEntered⟩ := Visited.enter?_eq_some_iff.1 hEnter
      simp only [hEnter] at hRound
      cases hRound
      refine .enter hNew hEntered ?_
      rw [List.map_append, List.map_reverse, map_fst_inner]
      exact (List.reverse_perm _).append_right _

/-! ## What is left -/

/-- What waits, and what will ever come to wait: an edge counts as long as its owner has not been
entered. -/
def Front.left (h : Heap) (all : List Container) (f : Front) : Nat :=
  f.waiting.length +
    ((all.filter (· ∉ f.visited.entered)).map fun c => (nested h c).length).sum

/-- A round uses up one of what is left. -/
theorem Advances.left_eq {h : Heap} {all : List Container} {f g : Front} (hAll : all.Nodup)
    (hWaiting : ∀ c ∈ f.waiting, c ∈ all) (hAdvance : Advances h f g) :
    g.left h all + 1 = f.left h all := by
  cases hAdvance with
  | drop _ =>
    simp only [Front.left, List.length_cons]
    omega
  | @enter c rest waiting visited visited' hNew hEntered hPerm =>
    -- the container entered counts no more among those whose edges are still to be followed
    have hErase : all.filter (· ∉ c :: visited.entered) =
        (all.filter (· ∉ visited.entered)).erase c := by
      rw [(hAll.filter _).erase_eq_filter, List.filter_filter]
      congr 1
      funext d
      simp [bne, beq_eq_decide]
    have hMem : c ∈ all.filter (· ∉ visited.entered) := by
      rw [List.mem_filter, decide_eq_true_eq]
      exact ⟨hWaiting c List.mem_cons_self, hNew⟩
    have hSum := List.sum_map_erase (fun c => (nested h c).length) hMem
    simp only [Front.left, hPerm.length_eq, hEntered, hErase, ← hSum, List.length_append,
      List.length_cons]
    omega

/-- The containers that the rounds between some fronts enter, in order. -/
def enteredOn : List Front → List Container
  | f :: g :: fronts =>
    g.visited.entered.filter (· ∉ f.visited.entered) ++ enteredOn (g :: fronts)
  | _ => []

/-- What holds of the fronts of a search below `root`, one for each round. -/
structure Orderly (h : Heap) (root : Container) (fronts : List Front) : Prop where
  advances : fronts.IsChain (Advances h)
  /-- What waits can be reached, so this holds of what is entered. -/
  reaches : ∀ f ∈ fronts, ∀ c ∈ f.waiting, h.Reaches root c
  /-- No container is entered twice. -/
  nodup : (enteredOn fronts).Nodup
  /-- Apart from the round that ends the search there is one for the root and one at most for each
  edge that leads to a container. -/
  length_le : fronts.length ≤ (edges h root fun v => v.container?.isSome = true).ncard + 2

section Fronts

variable {h : Heap} {root : Container} {f g : Front} {fronts : List Front}

theorem Advances.reaches (hAdvance : Advances h f g) (hReach : ∀ c ∈ f.waiting, h.Reaches root c) :
    ∀ c ∈ g.waiting, h.Reaches root c := by
  cases hAdvance with
  | drop _ => exact (List.forall_mem_cons.1 hReach).2
  | @enter c rest waiting _ _ _ _ hPerm =>
    obtain ⟨hHead, hRest⟩ := List.forall_mem_cons.1 hReach
    intro d hd
    rcases List.mem_append.1 (hPerm.mem_iff.1 hd) with hNested | hd
    · obtain ⟨⟨key, v⟩, hEntry, hChild⟩ := List.mem_filterMap.1 hNested
      rw [Value.container?_eq_some_iff] at hChild
      rw [hChild] at hEntry
      exact hHead.child hEntry
    · exact hRest d hd

theorem reaches_of_chain (hChain : (f :: fronts).IsChain (Advances h))
    (hReach : ∀ c ∈ f.waiting, h.Reaches root c) :
    ∀ g ∈ f :: fronts, ∀ c ∈ g.waiting, h.Reaches root c := by
  induction fronts generalizing f with
  | nil =>
    intro g hg
    rw [List.mem_singleton.1 hg]
    exact hReach
  | cons g fronts ih =>
    obtain ⟨hAdvance, hRest⟩ := List.isChain_cons_cons.1 hChain
    exact List.forall_mem_cons.2 ⟨hReach, ih hRest (hAdvance.reaches hReach)⟩

/-- What a chain of rounds enters is new, and entered once. -/
theorem nodup_of_chain (hChain : (f :: fronts).IsChain (Advances h)) :
    (enteredOn (f :: fronts)).Nodup ∧ ∀ c ∈ enteredOn (f :: fronts), c ∉ f.visited.entered := by
  induction fronts generalizing f with
  | nil => exact ⟨.nil, by simp [enteredOn]⟩
  | cons g fronts ih =>
    obtain ⟨hAdvance, hRest⟩ := List.isChain_cons_cons.1 hChain
    obtain ⟨hNodup, hNew⟩ := ih hRest
    have hSelf : ∀ l : List Container, l.filter (· ∉ l) = [] := by simp
    cases hAdvance with
    | drop _ =>
      rw [enteredOn, hSelf, List.nil_append]
      exact ⟨hNodup, hNew⟩
    | @enter c rest waiting visited visited' hc hEntered _ =>
      have hFirst : visited'.entered.filter (· ∉ visited.entered) = [c] := by
        rw [hEntered, List.filter_cons_of_pos (by simpa using hc), hSelf]
      -- what is entered later is neither the container entered now nor one entered before
      rw [hEntered] at hNew
      rw [enteredOn, hFirst, List.singleton_append, List.nodup_cons]
      refine ⟨⟨fun hMem => hNew c hMem List.mem_cons_self, hNodup⟩, ?_⟩
      refine List.forall_mem_cons.2 ⟨hc, fun d hd hMem => hNew d hd (List.mem_cons_of_mem _ hMem)⟩

/-- There are no more rounds than there is left. -/
theorem length_le_of_chain {all : List Container} (hAll : all.Nodup)
    (hChain : (f :: fronts).IsChain (Advances h))
    (hWaiting : ∀ g ∈ f :: fronts, ∀ c ∈ g.waiting, c ∈ all) : fronts.length ≤ f.left h all := by
  induction fronts generalizing f with
  | nil => exact Nat.zero_le _
  | cons g fronts ih =>
    obtain ⟨hAdvance, hRest⟩ := List.isChain_cons_cons.1 hChain
    obtain ⟨hHead, hTail⟩ := List.forall_mem_cons.1 hWaiting
    have hLeft := hAdvance.left_eq hAll hHead
    have hLength := ih hRest hTail
    rw [List.length_cons]
    omega

end Fronts

/-- The edges that lead to containers, counted by their owners. -/
theorem ncard_edges_eq (h : Heap) (root : Container) :
    (edges h root fun v => v.container?.isSome = true).ncard =
      (((tour h [⟨root, []⟩] .empty).map Stop.container).map fun c => (nested h c).length).sum := by
  have hStop : ∀ s : Stop, ((s.candidates h).filter fun c => c.value.container?.isSome).length =
      (nested h s.container).length := by
    intro s
    rw [Stop.candidates, nested, List.length_filterMap_eq_countP, List.filter_map, List.length_map,
      ← List.countP_eq_length_filter]
    rfl
  rw [← length_filter_candidates, candidates, List.filter_flatMap, List.length_flatMap,
    List.map_map]
  congr 1
  exact List.map_congr_left fun s _ => hStop s

/-- The rounds of a search from `root`, whatever the order in which the containers wait. -/
theorem orderly_of_chain {h : Heap} {root : Container} {fronts : List Front}
    (hChain : (⟨[root], .empty⟩ :: fronts).IsChain (Advances h)) :
    Orderly h root (⟨[root], .empty⟩ :: fronts) := by
  have hRoot : ∀ c ∈ [root], h.Reaches root c := by
    simpa using h.reaches_self root
  have hReach := reaches_of_chain hChain hRoot
  refine ⟨hChain, hReach, (nodup_of_chain hChain).1, ?_⟩
  have hLength := length_le_of_chain (nodup_tour_root h root) hChain fun f hf c hc => by
    obtain ⟨s, hs, rfl⟩ := reaches_iff_mem_tour.1 (hReach f hf c hc)
    exact List.mem_map_of_mem hs
  -- at first the root waits, and no edge has been followed
  have hLeft : Front.left h ((tour h [⟨root, []⟩] .empty).map Stop.container) ⟨[root], .empty⟩ =
      1 + (edges h root fun v => v.container?.isSome = true).ncard := by
    rw [ncard_edges_eq]
    simp [Front.left, Visited.empty]
  rw [List.length_cons]
  omega

/-! ## Whole searches -/

theorem exists_run_searchKey (h : Heap) (name : String) (queue : List Pending)
    (visited : Visited) : ∃ states, Run (KeyState.round h name) (⟨queue, visited⟩ :: states)
      (searchKey h name queue visited) := by
  induction queue, visited using searchKey.induct h name with
  | case1 visited =>
    rw [searchKey]
    exact ⟨[], .stop rfl⟩
  | case2 visited p rest hEnter ih =>
    obtain ⟨states, hRun⟩ := ih
    rw [searchKey_skip hEnter]
    exact ⟨_, .turn (by simp [KeyState.round, hEnter]) hRun⟩
  | case3 visited p rest visited' hEnter v hOwn =>
    rw [searchKey_stop hEnter hOwn]
    exact ⟨[], .stop (by simp [KeyState.round, hEnter, hOwn])⟩
  | case4 visited p rest visited' hEnter hOwn ih =>
    obtain ⟨states, hRun⟩ := ih
    rw [searchKey_expand hEnter hOwn]
    exact ⟨_, .turn (by simp [KeyState.round, hEnter, hOwn]) hRun⟩

/-- What has been reported when a search goes on stands in front of what it reports then. -/
theorem exists_run_sweep (h : Heap) (judge : Value → Verdict) (stack : List Place)
    (visited : Visited) (report : Report) : ∃ states,
      Run (ValueState.round h judge) (⟨stack, visited, report⟩ :: states)
        ⟨report ++ (sweep h judge stack visited).report,
          (sweep h judge stack visited).entered⟩ := by
  induction stack, visited using sweep.induct h judge generalizing report with
  | case1 visited =>
    rw [sweep, Report.append_empty]
    exact ⟨[], .stop rfl⟩
  | case2 visited c path rest hEnter ih =>
    obtain ⟨states, hRun⟩ := ih report
    rw [sweep_skip hEnter]
    exact ⟨_, .turn (by simp [ValueState.round, hEnter]) hRun⟩
  | case3 visited c path rest visited' hEnter ih =>
    obtain ⟨states, hRun⟩ := ih (report ++ examine judge path (h.entries c))
    rw [report_sweep_enter hEnter, entered_sweep_enter hEnter, ← Report.append_assoc]
    exact ⟨_, .turn (by simp [ValueState.round, hEnter]) hRun⟩

/-- Both searches end, on every graph and from every root. From a container, a search goes through
finitely many rounds, and the last one ends it with its result, whatever the name looked for, and
whatever the comparator says of the candidates. Each round before drops a container that has been
entered before, and leaves one less that waits, or enters one that can be reached, and has not been
entered before, and lets the containers among its children wait; so no container is entered twice,
and there is at most one such round for the root and for each edge that leads to a container. From a
scalar there are no rounds. -/
theorem searches_end (h : Heap) (root : Value) :
    match root with
    | .container c =>
      (∀ name, ∃ states outcome,
        Run (KeyState.round h name) (.start c :: states) outcome ∧
        Orderly h c ((.start c :: states).map KeyState.front) ∧
        findKey h root name =
          if Text.isBlankText name then .error .blankKey else .ok (some outcome)) ∧
      ∀ target comparator, ∃ states outcome,
        Run (ValueState.round h (comparator.judge h · target)) (.start c :: states) outcome ∧
        Orderly h c ((.start c :: states).map ValueState.front) ∧
        findValue? h root target comparator = some outcome
    | _ =>
      (∀ name, findKey h root name =
        if Text.isBlankText name then .error .blankKey else .ok none) ∧
      ∀ target comparator, findValue? h root target comparator = none := by
  cases root with
  | container c =>
    constructor
    · intro name
      obtain ⟨states, hRun⟩ := exists_run_searchKey h name [⟨c, none, 0⟩] .empty
      have hChain := hRun.isChain fun s t hRound => KeyState.advances hRound
      refine ⟨states, _, hRun, orderly_of_chain ?_, rfl⟩
      exact (List.isChain_map KeyState.front).2 hChain
    · intro target comparator
      obtain ⟨states, hRun⟩ :=
        exists_run_sweep h (comparator.judge h · target) [(c, none)] .empty .empty
      have hChain := hRun.isChain fun s t hRound => ValueState.advances hRound
      refine ⟨states, _, hRun, orderly_of_chain ?_, rfl⟩
      exact (List.isChain_map ValueState.front).2 hChain
  | absent | null | bool | number | text => exact ⟨fun name => rfl, fun target comparator => rfl⟩

end DocGraph.Search
