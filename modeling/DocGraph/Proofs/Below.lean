import DocGraph.Proofs.Expansion
import DocGraph.Proofs.LevelOrder
import DocGraph.Proofs.Tour

/-!
# DocGraph: what a search looks at below a value

A search may start at any value, and below a scalar there is nothing to search. What it looks at are
the containers that routes from the value lead to, and their children. Here the two searches are
described in these terms, so that nothing has to be said of queues, stacks and walks any more.

* `exists_walk_iff_route` / `reaches_iff_meets`: walks are the routes between containers.
* `findKeyMatch_none_iff`: no field of a name is found exactly if no container met owns one.
* `findValueReport_eq_compared`: what a search for a value reports, read off what it compares.
* `exists_compared_iff`: what is compared are the children of the containers met.
-/

namespace DocGraph

namespace Heap

variable {h : Heap} {c d : Container}

/-- Walks are the routes between containers. -/
theorem exists_walk_iff_route {keys : List Key} :
    (∃ w, h.Walk c w keys d) ↔
      ∃ edges, h.Route (.container c) edges (.container d) ∧ edges.map Edge.key = keys := by
  constructor
  · rintro ⟨w, hWalk⟩
    induction hWalk with
    | here c => exact ⟨[], .here _, rfl⟩
    | step hEntry _ ih =>
      obtain ⟨edges, hRoute, hKeys⟩ := ih
      exact ⟨_, .step (List.mem_of_getElem? hEntry) hRoute, by rw [List.map_cons, hKeys]⟩
  · rintro ⟨edges, hRoute, rfl⟩
    induction edges generalizing c with
    | nil =>
      cases hRoute
      exact ⟨[], .here d⟩
    | cons e edges ih =>
      cases hRoute with
      | @step _ key u _ _ hEntry hRest =>
        obtain ⟨n, hn⟩ := List.mem_iff_getElem?.1 hEntry
        -- only a container has a way on, and the end is one too
        have hContainer : ∃ b, u = .container b := by
          cases hRest with
          | here => exact ⟨d, rfl⟩
          | @step b => exact ⟨b, rfl⟩
        obtain ⟨b, rfl⟩ := hContainer
        obtain ⟨w, hWalk⟩ := ih hRest
        exact ⟨n :: w, .step hn hWalk⟩

theorem reaches_iff_meets : h.Reaches c d ↔ h.Meets (.container c) d := by
  constructor
  · rintro ⟨w, keys, hWalk⟩
    obtain ⟨edges, hRoute, -⟩ := exists_walk_iff_route.1 ⟨w, hWalk⟩
    exact ⟨edges, hRoute⟩
  · rintro ⟨edges, hRoute⟩
    obtain ⟨w, hWalk⟩ := exists_walk_iff_route.2 ⟨edges, hRoute, rfl⟩
    exact ⟨w, _, hWalk⟩

theorem not_meets_scalar {v : Value} (hv : v.container? = none) (c : Container) :
    ¬ h.Meets v c := by
  rintro ⟨edges, hRoute⟩
  cases hRoute with
  | here => cases hv
  | step => cases hv

end Heap

namespace Search

variable {h : Heap} {v : Value} {name : String}

/-- A search that is carried out is for a name that is not blank. -/
theorem isBlankText_of_findKeyMatch {found : Option KeyMatch}
    (hMatch : findKeyMatch h v name = .ok found) : Text.isBlankText name = false := by
  cases hBlank : Text.isBlankText name with
  | false => rfl
  | true =>
    rw [findKeyMatch, findKey, if_pos hBlank] at hMatch
    contradiction

/-- The search for a name finds nothing exactly if no container below the value owns the name. -/
theorem findKeyMatch_none_iff (hName : Text.isBlankText name = false) :
    findKeyMatch h v name = .ok none ↔ ∀ c, h.Meets v c → h.ownField c name = none := by
  cases hRoot : v.container? with
  | none =>
    have hNone : findKeyMatch h v name = .ok none := by
      rw [findKeyMatch, findKey, hName, hRoot]
      rfl
    exact ⟨fun _ c hMeets => absurd hMeets (Heap.not_meets_scalar hRoot c), fun _ => hNone⟩
  | some root =>
    obtain rfl := Value.container?_eq_some_iff.1 hRoot
    have hRun : findKeyMatch h (.container root) name =
        .ok (searchKey h name [⟨root, none, 0⟩] .empty).found := by
      rw [findKeyMatch, findKey, hName, hRoot]
      rfl
    rw [hRun, Except.ok.injEq]
    constructor
    · intro hNone c hMeets
      obtain ⟨w, keys, hWalk⟩ := Heap.reaches_iff_meets.2 hMeets
      -- otherwise one of the walks to an owner is the first, and its end is found
      by_contra hOwn
      have hOwner : OwnerWalk h root name w := ⟨keys, c, hWalk, Option.isSome_iff_ne_none.2 hOwn⟩
      obtain ⟨w, keys, owner, value, hFirst⟩ := exists_firstOwner ⟨w, hOwner⟩
      have hFound :=
        searchKey_of_firstOwner hFirst [⟨root, none, 0⟩] _ _ rfl (Frontier.init h root w)
      rw [hNone] at hFound
      contradiction
    · intro hNone
      have hOwnerless : ∀ w, ¬ OwnerWalk h root name w := by
        rintro w ⟨keys, c, hWalk, hOwn⟩
        rw [hNone c (Heap.reaches_iff_meets.1 ⟨w, keys, hWalk⟩)] at hOwn
        contradiction
      refine searchKey_of_ownerless hOwnerless _ _ fun p hp => ?_
      rw [List.mem_singleton.1 hp]
      exact h.reaches_self root

/-- All candidates below a value, in the order of comparison. -/
def compared (h : Heap) (v : Value) : List Candidate :=
  (v.container?.map (candidates h)).getD []

theorem findValueReport_eq_compared (target : Value) (comparator : Comparator) :
    findValueReport h v target comparator =
      .ofCandidates (comparator.judge h · target) (compared h v) := by
  cases hRoot : v.container? with
  | none =>
    rw [findValueReport, findValue?, compared, hRoot]
    rfl
  | some root =>
    obtain rfl := Value.container?_eq_some_iff.1 hRoot
    exact findValueReport_eq h root target comparator

/-- What is compared are children of containers met on routes with the keys noted. -/
theorem exists_route_of_compared {e : Candidate} (he : e ∈ compared h v) :
    (e.key, e.value) ∈ h.entries e.owner ∧
      ∃ edges, h.Route v edges (.container e.owner) ∧ edges.map Edge.key = e.keys := by
  cases hRoot : v.container? with
  | none =>
    rw [compared, hRoot] at he
    contradiction
  | some root =>
    obtain rfl := Value.container?_eq_some_iff.1 hRoot
    obtain ⟨hStop, hEntry⟩ := mem_candidates_iff.1 he
    exact ⟨hEntry, Heap.exists_walk_iff_route.1 (genuine_tour_root _ hStop)⟩

/-- Every child of a container met is compared, on some route to the container. -/
theorem exists_compared_of_meets {c : Container} (hMeets : h.Meets v c) {key : Key} {w : Value}
    (hEntry : (key, w) ∈ h.entries c) : ∃ keys, ⟨keys, c, key, w⟩ ∈ compared h v := by
  cases hRoot : v.container? with
  | none => exact absurd hMeets (Heap.not_meets_scalar hRoot c)
  | some root =>
    obtain rfl := Value.container?_eq_some_iff.1 hRoot
    obtain ⟨s, hs, rfl⟩ := reaches_iff_mem_tour.1 (Heap.reaches_iff_meets.2 hMeets)
    exact ⟨s.keys, mem_candidates_iff.2 ⟨hs, hEntry⟩⟩

theorem exists_compared_iff {p : Value → Prop} :
    (∃ e ∈ compared h v, p e.value) ↔
      ∃ c, h.Meets v c ∧ ∃ key w, (key, w) ∈ h.entries c ∧ p w := by
  constructor
  · rintro ⟨e, he, hp⟩
    obtain ⟨hEntry, edges, hRoute, -⟩ := exists_route_of_compared he
    exact ⟨e.owner, ⟨edges, hRoute⟩, e.key, e.value, hEntry, hp⟩
  · rintro ⟨c, hMeets, key, w, hEntry, hp⟩
    obtain ⟨keys, hMem⟩ := exists_compared_of_meets hMeets hEntry
    exact ⟨_, hMem, hp⟩

theorem judge_strict_iff {w target : Value} :
    Comparator.strict.judge h w target = .accepted ↔ (w == target) = true := by
  rw [Comparator.judge, Verdict.ofBool]
  cases w == target <;> simp

theorem mem_findByValue_iff {target : Value} {comparator : Comparator} {path : String} :
    path ∈ findByValue h v target comparator ↔
      ∃ e ∈ compared h v, comparator.judge h e.value target = .accepted ∧ e.path = path := by
  rw [findByValue, findValueReport_eq_compared, Report.ofCandidates]
  simp [and_assoc]

end Search

end DocGraph
