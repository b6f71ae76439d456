import DocGraph.Proofs.Rendering
import DocGraph.Proofs.Walk
import DocGraph.Search.Occurrence
import Mathlib.Data.Set.Card

/-!
# DocGraph: the search for a value compares each edge once

The order in which a search for a value goes through a graph does not depend on what it compares.
`tour` is that order: the containers entered, each with the keys of the walk by which it was
reached. The stack may hold a container many times, under different paths, for it is marked only
when it is entered.

* `report_sweep_eq`: a search reports on the children of the containers on its tour, in order.
* `nodup_tour` / `genuine_tour` / `reaches_iff_mem_tour`: a tour enters nothing twice, enters by
  walks from the root, and enters all that can be reached.
* `length_tour` / `length_filter_candidates`: how many containers there are to enter, and how many
  edges of a kind to compare.
* `findValueReport_compares_edges`: so each edge of the graph is compared once, under a walk.
-/

namespace DocGraph.Search

/-- A container with the keys of a walk that leads to it. -/
structure Stop where
  container : Container
  keys : List Key

namespace Stop

/-- What the stack of a search holds for a stop. -/
def place (s : Stop) : Place :=
  (s.container, Path.trail s.keys)

/-- The stops one step further. -/
def children (h : Heap) (s : Stop) : List Stop :=
  (h.entries s.container).filterMap fun (key, v) =>
    v.container?.map fun c => ⟨c, s.keys ++ [key]⟩

/-- The keys lead from `root` to the container. -/
def Genuine (h : Heap) (root : Container) (s : Stop) : Prop :=
  ∃ w, h.Walk root w s.keys s.container

theorem map_place_children (h : Heap) (s : Stop) :
    (s.children h).map place = inner (Path.trail s.keys) (h.entries s.container) := by
  rw [children, List.map_filterMap, inner]
  congr 1
  funext ⟨key, v⟩
  simp [Function.comp_def, place, Path.trail_concat]

theorem mem_children_iff {h : Heap} {s t : Stop} :
    t ∈ s.children h ↔
      ∃ key, (key, .container t.container) ∈ h.entries s.container ∧ t.keys = s.keys ++ [key] := by
  obtain ⟨c, keys⟩ := t
  simp only [children, List.mem_filterMap, Option.map_eq_some_iff, Value.container?_eq_some_iff,
    Stop.mk.injEq]
  constructor
  · rintro ⟨⟨key, v⟩, hEntry, _, rfl, rfl, rfl⟩
    exact ⟨key, hEntry, rfl⟩
  · rintro ⟨key, hEntry, rfl⟩
    exact ⟨(key, .container c), hEntry, c, rfl, rfl, rfl⟩

theorem Genuine.child {h : Heap} {root : Container} {s t : Stop} (hs : s.Genuine h root)
    (ht : t ∈ s.children h) : t.Genuine h root := by
  obtain ⟨w, hWalk⟩ := hs
  obtain ⟨key, hEntry, hKeys⟩ := mem_children_iff.1 ht
  obtain ⟨n, hn⟩ := List.mem_iff_getElem?.1 hEntry
  exact ⟨w ++ [n], hKeys ▸ hWalk.concat hn⟩

end Stop

/-- The containers that a search enters from a stack of stops, in order. -/
def tour (h : Heap) (stack : List Stop) (visited : Visited) : List Stop :=
  match stack with
  | [] => []
  | s :: rest =>
    match _h : visited.enter? s.container with
    | none => tour h rest visited
    | some visited' => s :: tour h ((s.children h).reverse ++ rest) visited'
termination_by (visited.remaining h, stack.length)
decreasing_by
  -- entered before: the stack is shorter
  · exact Prod.Lex.right _ (by simp)
  -- entered now: fewer are left, or there is nothing to push
  · exact Visited.lex_lt_of_enter? _h fun hc => by simp [Stop.children, hc]

section Tour

variable {h : Heap} {s : Stop} {rest : List Stop} {visited visited' : Visited}

theorem tour_skip (hEnter : visited.enter? s.container = none) :
    tour h (s :: rest) visited = tour h rest visited := by
  rw [tour]
  split
  · rfl
  · simp_all

theorem tour_enter (hEnter : visited.enter? s.container = some visited') :
    tour h (s :: rest) visited = s :: tour h ((s.children h).reverse ++ rest) visited' := by
  rw [tour]
  split <;> simp_all

end Tour

/-! ## What a tour enters -/

/-- Nothing is entered twice, and nothing that was entered before. -/
theorem nodup_tour (h : Heap) (stack : List Stop) (visited : Visited) :
    (visited.entered.reverse ++ (tour h stack visited).map Stop.container).Nodup := by
  induction stack, visited using tour.induct h with
  | case1 visited => simpa [tour] using visited.nodup
  | case2 visited s rest hEnter ih =>
    rw [tour_skip hEnter]
    exact ih
  | case3 visited s rest visited' hEnter ih =>
    -- the container entered moves from the front of the tour to those entered before
    rw [tour_enter hEnter]
    rw [(Visited.enter?_eq_some_iff.1 hEnter).2, List.reverse_cons, List.append_assoc] at ih
    exact ih

/-- What is entered from stops on walks from the root is entered by walks from the root. -/
theorem genuine_tour {h : Heap} {root : Container} (stack : List Stop) (visited : Visited)
    (hStack : ∀ s ∈ stack, s.Genuine h root) : ∀ s ∈ tour h stack visited, s.Genuine h root := by
  induction stack, visited using tour.induct h with
  | case1 visited => simp [tour]
  | case2 visited s rest hEnter ih =>
    rw [tour_skip hEnter]
    exact ih fun t ht => hStack t (List.mem_cons_of_mem _ ht)
  | case3 visited s rest visited' hEnter ih =>
    rw [tour_enter hEnter]
    intro t ht
    rcases List.mem_cons.1 ht with rfl | ht
    · exact hStack t List.mem_cons_self
    · refine ih (fun t ht => ?_) t ht
      rcases List.mem_append.1 ht with ht | ht
      · exact (hStack s List.mem_cons_self).child (List.mem_reverse.1 ht)
      · exact hStack t (List.mem_cons_of_mem _ ht)

/-- The container has been entered before a tour or is entered on it. -/
def Covered (h : Heap) (stack : List Stop) (visited : Visited) (c : Container) : Prop :=
  c ∈ visited.entered ∨ ∃ s ∈ tour h stack visited, s.container = c

theorem covered_enter_iff {h : Heap} {s : Stop} {rest : List Stop} {visited visited' : Visited}
    (hEnter : visited.enter? s.container = some visited') (c : Container) :
    Covered h (s :: rest) visited c ↔ Covered h ((s.children h).reverse ++ rest) visited' c := by
  rw [Covered, Covered, tour_enter hEnter, (Visited.enter?_eq_some_iff.1 hEnter).2]
  simp only [List.mem_cons, exists_eq_or_imp]
  rw [← or_assoc, or_comm (a := c ∈ visited.entered), eq_comm]

theorem covered_of_mem_stack {h : Heap} (stack : List Stop) (visited : Visited) :
    ∀ s ∈ stack, Covered h stack visited s.container := by
  induction stack, visited using tour.induct h with
  | case1 visited => simp
  | case2 visited s rest hEnter ih =>
    intro t ht
    rw [Covered, tour_skip hEnter]
    rcases List.mem_cons.1 ht with rfl | ht
    · exact .inl (Visited.enter?_eq_none_iff.1 hEnter)
    · exact ih t ht
  | case3 visited s rest visited' hEnter ih =>
    intro t ht
    rw [covered_enter_iff hEnter]
    rcases List.mem_cons.1 ht with rfl | ht
    · rw [Covered, (Visited.enter?_eq_some_iff.1 hEnter).2]
      exact .inl List.mem_cons_self
    · exact ih t (List.mem_append_right _ ht)

/-- The children of what has been entered have been entered too, or wait on the stack. -/
def Pushed (h : Heap) (stack : List Stop) (visited : Visited) : Prop :=
  ∀ c ∈ visited.entered, ∀ key d, (key, .container d) ∈ h.entries c →
    d ∈ visited.entered ∨ ∃ s ∈ stack, s.container = d

theorem Pushed.skip {h : Heap} {s : Stop} {rest : List Stop} {visited : Visited}
    (hPushed : Pushed h (s :: rest) visited) (hEnter : visited.enter? s.container = none) :
    Pushed h rest visited := by
  intro c hc key d hEntry
  rcases hPushed c hc key d hEntry with hd | ⟨t, ht, rfl⟩
  · exact .inl hd
  · rcases List.mem_cons.1 ht with rfl | ht
    -- the stop that is dropped leads to a container entered before
    · exact .inl (Visited.enter?_eq_none_iff.1 hEnter)
    · exact .inr ⟨t, ht, rfl⟩

theorem Pushed.enter {h : Heap} {s : Stop} {rest : List Stop} {visited visited' : Visited}
    (hPushed : Pushed h (s :: rest) visited)
    (hEnter : visited.enter? s.container = some visited') :
    Pushed h ((s.children h).reverse ++ rest) visited' := by
  intro c hc key d hEntry
  rw [(Visited.enter?_eq_some_iff.1 hEnter).2] at hc ⊢
  rcases List.mem_cons.1 hc with rfl | hc
  -- the children of the container entered now are pushed
  · refine .inr ⟨⟨d, s.keys ++ [key]⟩, List.mem_append_left _ ?_, rfl⟩
    exact List.mem_reverse.2 (Stop.mem_children_iff.2 ⟨key, hEntry, rfl⟩)
  -- those of a container entered before waited, if only as the top of the stack
  · rcases hPushed c hc key d hEntry with hd | ⟨t, ht, rfl⟩
    · exact .inl (List.mem_cons_of_mem _ hd)
    · rcases List.mem_cons.1 ht with rfl | ht
      · exact .inl List.mem_cons_self
      · exact .inr ⟨t, List.mem_append_right _ ht, rfl⟩

/-- A tour leaves no child of a container behind. -/
theorem covered_child {h : Heap} (stack : List Stop) (visited : Visited)
    (hPushed : Pushed h stack visited) (c : Container) (hc : Covered h stack visited c) (key : Key)
    (d : Container) (hEntry : (key, .container d) ∈ h.entries c) : Covered h stack visited d := by
  induction stack, visited using tour.induct h with
  | case1 visited =>
    -- the stack is empty, so nothing waits any more
    have hEntered : c ∈ visited.entered := by simpa [Covered, tour] using hc
    rcases hPushed c hEntered key d hEntry with hd | ⟨s, hs, -⟩
    · exact .inl hd
    · simp at hs
  | case2 visited s rest hEnter ih =>
    rw [Covered, tour_skip hEnter] at hc ⊢
    exact ih (hPushed.skip hEnter) hc
  | case3 visited s rest visited' hEnter ih =>
    rw [covered_enter_iff hEnter] at hc ⊢
    exact ih (hPushed.enter hEnter) hc

theorem genuine_tour_root {h : Heap} {root : Container} :
    ∀ s ∈ tour h [⟨root, []⟩] .empty, s.Genuine h root := by
  refine genuine_tour _ _ fun s hs => ?_
  rw [List.mem_singleton.1 hs]
  exact ⟨[], .here root⟩

/-- A tour from the root enters nothing twice. -/
theorem nodup_tour_root (h : Heap) (root : Container) :
    ((tour h [⟨root, []⟩] .empty).map Stop.container).Nodup :=
  nodup_tour h [⟨root, []⟩] .empty

/-- A tour from the root enters exactly what can be reached. -/
theorem reaches_iff_mem_tour {h : Heap} {root c : Container} :
    h.Reaches root c ↔ ∃ s ∈ tour h [⟨root, []⟩] .empty, s.container = c := by
  constructor
  -- the containers of the tour include the root and the children of each of them
  · intro hc
    have hRoot : Covered h [⟨root, []⟩] .empty root :=
      covered_of_mem_stack _ _ _ (List.mem_singleton_self _)
    have hPushed : Pushed h [⟨root, []⟩] .empty := by simp [Pushed, Visited.empty]
    have hCovered := hc.closed hRoot fun a ha key b => covered_child _ _ hPushed a ha key b
    simpa [Covered, Visited.empty] using hCovered
  · rintro ⟨s, hs, rfl⟩
    obtain ⟨w, hWalk⟩ := genuine_tour_root s hs
    exact ⟨w, s.keys, hWalk⟩

/-- A list of the members of a set, none twice, is as long as the set is large. -/
theorem length_eq_ncard {α : Type*} [DecidableEq α] {l : List α} {s : Set α} (hNodup : l.Nodup)
    (hMem : ∀ a, a ∈ s ↔ a ∈ l) : l.length = s.ncard := by
  have hSet : s = (l.toFinset : Set α) := by
    ext a
    simp [hMem]
  rw [hSet, Set.ncard_coe_finset, List.toFinset_card_of_nodup hNodup]

/-- A tour from the root is as long as there are containers to be reached. -/
theorem length_tour (h : Heap) (root : Container) :
    (tour h [⟨root, []⟩] .empty).length = {c | h.Reaches root c}.ncard := by
  rw [← List.length_map Stop.container]
  refine length_eq_ncard (nodup_tour_root h root) fun c => ?_
  exact reaches_iff_mem_tour.trans List.mem_map.symm

/-! ## What a search compares -/

/-- A child of a container, with the keys of the walk by which its owner was entered. -/
structure Candidate where
  keys : List Key
  owner : Container
  key : Key
  value : Value

namespace Candidate

/-- The edge that leads to the child. -/
def edge (c : Candidate) : Container × Key :=
  (c.owner, c.key)

def path (c : Candidate) : String :=
  Path.render (c.keys ++ [c.key])

end Candidate

/-- The children of the container of a stop. -/
def Stop.candidates (h : Heap) (s : Stop) : List Candidate :=
  (h.entries s.container).map fun (key, v) => ⟨s.keys, s.container, key, v⟩

/-- All candidates below `root`, in the order of comparison. -/
def candidates (h : Heap) (root : Container) : List Candidate :=
  (tour h [⟨root, []⟩] .empty).flatMap (Stop.candidates h)

theorem mem_candidates_iff {h : Heap} {root : Container} {c : Candidate} :
    c ∈ candidates h root ↔ ⟨c.owner, c.keys⟩ ∈ tour h [⟨root, []⟩] .empty ∧
      (c.key, c.value) ∈ h.entries c.owner := by
  simp only [candidates, List.mem_flatMap, Stop.candidates, List.mem_map]
  constructor
  · rintro ⟨s, hs, ⟨key, v⟩, hEntry, rfl⟩
    exact ⟨hs, hEntry⟩
  · rintro ⟨hs, hEntry⟩
    exact ⟨_, hs, (c.key, c.value), hEntry, rfl⟩

/-- A candidate is a child of its owner, which the keys lead to. -/
theorem exists_walk_of_mem_candidates {h : Heap} {root : Container} {c : Candidate}
    (hc : c ∈ candidates h root) :
    (∃ w, h.Walk root w c.keys c.owner) ∧ (c.key, c.value) ∈ h.entries c.owner := by
  obtain ⟨hStop, hEntry⟩ := mem_candidates_iff.1 hc
  exact ⟨genuine_tour_root _ hStop, hEntry⟩

theorem nodup_edges (h : Heap) (root : Container) :
    ((candidates h root).map Candidate.edge).Nodup := by
  rw [candidates, List.map_flatMap, List.nodup_flatMap]
  constructor
  -- the edges from one container differ in their keys
  · intro s _
    have hEdges : (s.candidates h).map Candidate.edge =
        ((h.entries s.container).map Prod.fst).map fun key => (s.container, key) := by
      simp [Stop.candidates, Candidate.edge, Function.comp_def]
    rw [hEdges]
    exact List.Nodup.map (fun _ _ => congrArg Prod.snd) (h.nodup_keys s.container)
  -- those from different containers in their owners
  · refine (List.pairwise_map.1 (nodup_tour_root h root)).imp ?_
    intro s t hne
    rw [Function.onFun, List.disjoint_left]
    intro e hs ht
    obtain ⟨c, hc, rfl⟩ := List.mem_map.1 hs
    obtain ⟨d, hd, hEdge⟩ := List.mem_map.1 ht
    obtain ⟨_, _, rfl⟩ := List.mem_map.1 hc
    obtain ⟨_, _, rfl⟩ := List.mem_map.1 hd
    exact hne (congrArg Prod.fst hEdge).symm

/-- The edges below `root` whose child has the property `p`. -/
def edges (h : Heap) (root : Container) (p : Value → Prop) : Set (Container × Key) :=
  {e | h.Reaches root e.1 ∧ ∃ v, (e.2, v) ∈ h.entries e.1 ∧ p v}

theorem mem_edges_iff {h : Heap} {root : Container} {p : Value → Prop} {e : Container × Key} :
    e ∈ edges h root p ↔ ∃ c ∈ candidates h root, p c.value ∧ c.edge = e := by
  obtain ⟨owner, key⟩ := e
  constructor
  · rintro ⟨hReach, v, hEntry, hp⟩
    obtain ⟨s, hs, rfl⟩ := reaches_iff_mem_tour.1 hReach
    exact ⟨⟨s.keys, s.container, key, v⟩, mem_candidates_iff.2 ⟨hs, hEntry⟩, hp, rfl⟩
  · rintro ⟨c, hc, hp, hEdge⟩
    cases hEdge
    obtain ⟨hs, hEntry⟩ := mem_candidates_iff.1 hc
    exact ⟨reaches_iff_mem_tour.2 ⟨_, hs, rfl⟩, c.value, hEntry, hp⟩

/-- The candidates are all the edges from what can be reached. -/
theorem mem_map_edge_candidates_iff {h : Heap} {root : Container} {e : Container × Key} :
    e ∈ (candidates h root).map Candidate.edge ↔
      h.Reaches root e.1 ∧ ∃ v, (e.2, v) ∈ h.entries e.1 := by
  have hEdge : e ∈ edges h root (fun _ => True) ↔ _ := mem_edges_iff
  simpa [edges] using hEdge.symm

/-- Counting candidates is counting edges. -/
theorem length_filter_candidates (h : Heap) (root : Container) (p : Value → Bool) :
    ((candidates h root).filter fun c => p c.value).length =
      (edges h root fun v => p v = true).ncard := by
  have hNodup : (((candidates h root).filter fun c => p c.value).map Candidate.edge).Nodup :=
    (nodup_edges h root).sublist (List.filter_sublist.map _)
  rw [← List.length_map Candidate.edge]
  refine length_eq_ncard hNodup fun e => ?_
  rw [mem_edges_iff]
  simp [and_assoc]

/-! ## What a search reports -/

/-- The report on a list of candidates. -/
def Report.ofCandidates (judge : Value → Verdict) (list : List Candidate) : Report where
  paths := (list.filter fun c => judge c.value = .accepted).map Candidate.path
  faults := list.filterMap fun c => (judge c.value).fault?.map (⟨c.path, ·⟩)

theorem Report.ofCandidates_append (judge : Value → Verdict) (l m : List Candidate) :
    ofCandidates judge (l ++ m) = ofCandidates judge l ++ ofCandidates judge m := by
  simp only [ofCandidates, List.filter_append, List.map_append, List.filterMap_append]
  rfl

theorem examine_eq_ofCandidates (judge : Value → Verdict) (keys : List Key) (owner : Container)
    (entries : List (Key × Value)) :
    examine judge (Path.trail keys) entries =
      .ofCandidates judge (entries.map fun (key, v) => ⟨keys, owner, key, v⟩) := by
  induction entries with
  | nil => rfl
  | cons e entries ih =>
    obtain ⟨key, v⟩ := e
    rw [examine, ih, List.map_cons, ← List.singleton_append, Report.ofCandidates_append]
    congr 1
    rw [← Path.render_concat]
    cases hv : judge v <;>
      simp [Report.ofVerdict, Report.ofCandidates, Candidate.path, Verdict.fault?, hv]

/-- A search reports on the children of what it enters, one container after the other. -/
theorem report_sweep_eq (h : Heap) (judge : Value → Verdict) (stack : List Stop)
    (visited : Visited) :
    (sweep h judge (stack.map Stop.place) visited).report =
      .ofCandidates judge ((tour h stack visited).flatMap (Stop.candidates h)) := by
  induction stack, visited using tour.induct h with
  | case1 visited =>
    simp only [List.map_nil, sweep, tour]
    rfl
  | case2 visited s rest hEnter ih =>
    rw [List.map_cons, Stop.place, sweep_skip hEnter, tour_skip hEnter]
    exact ih
  | case3 visited s rest visited' hEnter ih =>
    rw [List.map_cons, Stop.place, report_sweep_enter hEnter, tour_enter hEnter,
      List.flatMap_cons, Report.ofCandidates_append, ← ih, List.map_append, List.map_reverse,
      Stop.map_place_children, Stop.candidates, ← examine_eq_ofCandidates]

theorem findValueReport_eq (h : Heap) (root : Container) (target : Value)
    (comparator : Comparator) :
    findValueReport h (.container root) target comparator =
      .ofCandidates (comparator.judge h · target) (candidates h root) := by
  have hRun := report_sweep_eq h (comparator.judge h · target) [⟨root, []⟩] .empty
  exact hRun

/-- A search for a value compares one candidate for each edge below the root, whatever it compares
with: none is left out and none is compared twice. A candidate's path is that of the keys of a walk
from the root to the owner of the edge, and of the edge's own key. So there is one path reported for
each edge whose child is accepted, and one fault for each on which the comparator gives no answer. -/
theorem findValueReport_compares_edges (h : Heap) (root : Container) :
    ∃ compared : List Candidate,
      (compared.map Candidate.edge).Nodup ∧
      (∀ e, e ∈ compared.map Candidate.edge ↔
        h.Reaches root e.1 ∧ ∃ v, (e.2, v) ∈ h.entries e.1) ∧
      (∀ c ∈ compared,
        (∃ w, h.Walk root w c.keys c.owner) ∧ (c.key, c.value) ∈ h.entries c.owner) ∧
      ∀ (target : Value) (comparator : Comparator),
        (findValueReport h (.container root) target comparator).paths =
          (compared.filter fun c => comparator.judge h c.value target = .accepted).map
            (fun c => Path.render (c.keys ++ [c.key])) ∧
        (findValueReport h (.container root) target comparator).faults =
          compared.filterMap (fun c => (comparator.judge h c.value target).fault?.map
            (⟨Path.render (c.keys ++ [c.key]), ·⟩)) ∧
        (findValueReport h (.container root) target comparator).paths.length =
          (edges h root fun v => comparator.judge h v target = .accepted).ncard ∧
        (findValueReport h (.container root) target comparator).faults.length =
          (edges h root fun v => (comparator.judge h v target).isFault = true).ncard := by
  refine ⟨candidates h root, nodup_edges h root, fun e => mem_map_edge_candidates_iff,
    fun c hc => exists_walk_of_mem_candidates hc, fun target comparator => ⟨?_, ?_, ?_, ?_⟩⟩
  -- the paths and the faults, then how many there are of each
  · rw [findValueReport_eq]
    rfl
  · rw [findValueReport_eq]
    rfl
  · have hCount := length_filter_candidates h root
      fun v => decide (comparator.judge h v target = .accepted)
    simp only [decide_eq_true_eq] at hCount
    rw [findValueReport_eq, Report.ofCandidates, List.length_map, hCount]
  · have hCount := length_filter_candidates h root
      fun v => (comparator.judge h v target).isFault
    rw [findValueReport_eq, Report.ofCandidates, List.length_filterMap_eq_countP, ← hCount,
      ← List.countP_eq_length_filter]
    simp [Verdict.isSome_fault?]

end DocGraph.Search
