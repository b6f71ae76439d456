import DocGraph.Proofs.Below
import DocGraph.Proofs.Bisimulation
import Mathlib

/-!
# DocGraph: deep equality ends on every pair of graphs

Deep equality is a recursion: two containers of one kind are equal if their children are, taken in
order, up to the first difference. The children may be containers that are being compared already,
so neither value gets smaller from one call to the next. What gets smaller is the number of pairs of
containers that are not in progress yet. A call that makes calls of its own has put its two
containers in progress before, a pair that was not there, of a container met from the one value and
one met from the other. There are finitely many such pairs, and none is ever taken out.

`Returns` tells the recursion by what its calls return, without a word on whether they do, and
`Makes` is the step from a call to one that it makes.

* `mem_opposite?`: what a call compares are children under one key.
* `Returns.keeps` / `Returns.inProgress`: what a call leaves in progress, by induction on its
  recursion.
* `exists_returns`: every call returns, by induction on the pairs not in progress.
* `Returns.agree_eq`: what is returned is what the comparison by a list of waiting pairs finds.
* `structuralEq_ends`: the recursion as a whole.
-/

namespace DocGraph.Search

/-! ## The recursion -/

/-- The children of a container in order, each with the child of the other container to compare it
to, if there is one; `none` if the containers differ in kind or size. -/
def opposite? (h : Heap) : Container → Container → Option (List (Value × Option Value))
  | .object a, .object b =>
    if (h.fields a).size = (h.fields b).size then
      some ((h.fields a).toList.map fun (name, v) => (v, (h.fields b).get? name))
    else none
  | .array a, .array b =>
    if (h.items a).length = (h.items b).length then
      some (((h.items a).zip (h.items b)).map fun (v, w) => (v, some w))
    else none
  | _, _ => none

/-- The values are containers of one kind, which are compared by their children. -/
def OneKind (v w : Value) : Prop :=
  ∃ a b, v = .container a ∧ w = .container b ∧ a.isArray = b.isArray

/-- What a comparison is to do: call itself with two values, or go on with children. -/
inductive Task where
  | call (v w : Value)
  | loop (children : List (Value × Option Value))

/-- With some pairs in progress a task returns an answer, and leaves some pairs in progress. -/
inductive Returns (h : Heap) : List Assumption → Task → Bool → List Assumption → Prop
  /-- The same container twice, or a pair in progress. -/
  | known {a b : Container} {pending : List Assumption} : a.isArray = b.isArray →
      a = b ∨ (a, b) ∈ pending →
      Returns h pending (.call (.container a) (.container b)) true pending
  | differ {a b : Container} {pending : List Assumption} : a.isArray = b.isArray →
      ¬ (a = b ∨ (a, b) ∈ pending) → opposite? h a b = none →
      Returns h pending (.call (.container a) (.container b)) false ((a, b) :: pending)
  | recurse {a b : Container} {pending after : List Assumption}
      {children : List (Value × Option Value)} {answer : Bool} : a.isArray = b.isArray →
      ¬ (a = b ∨ (a, b) ∈ pending) → opposite? h a b = some children →
      Returns h ((a, b) :: pending) (.loop children) answer after →
      Returns h pending (.call (.container a) (.container b)) answer after
  | other {v w : Value} {pending : List Assumption} : ¬ OneKind v w →
      Returns h pending (.call v w) (v == w) pending
  | done {pending : List Assumption} : Returns h pending (.loop []) true pending
  | missing {v : Value} {rest : List (Value × Option Value)} {pending : List Assumption} :
      Returns h pending (.loop ((v, none) :: rest)) false pending
  | stop {v w : Value} {rest : List (Value × Option Value)} {pending after : List Assumption} :
      Returns h pending (.call v w) false after →
      Returns h pending (.loop ((v, some w) :: rest)) false after
  | next {v w : Value} {rest : List (Value × Option Value)}
      {pending between after : List Assumption} {answer : Bool} :
      Returns h pending (.call v w) true between → Returns h between (.loop rest) answer after →
      Returns h pending (.loop ((v, some w) :: rest)) answer after

/-- A call of the recursion: the pairs in progress when it is made, and the values to compare. -/
structure Call where
  pending : List Assumption
  left : Value
  right : Value

/-- The one call makes the other: when it has put its containers in progress, and the children in
front have been found equal. -/
inductive Makes (h : Heap) : Call → Call → Prop
  | child {a b : Container} {pending between : List Assumption}
      {front rest : List (Value × Option Value)} {v w : Value} : a.isArray = b.isArray →
      ¬ (a = b ∨ (a, b) ∈ pending) → opposite? h a b = some (front ++ (v, some w) :: rest) →
      Returns h ((a, b) :: pending) (.loop front) true between →
      Makes h ⟨pending, .container a, .container b⟩ ⟨between, v, w⟩

/-! ## The children of two containers -/

section Children

variable {h : Heap} {a b : Container} {children : List (Value × Option Value)} {v w : Value}

/-- What is compared are children under one key. -/
theorem mem_opposite? (hChildren : opposite? h a b = some children)
    (hMem : (v, some w) ∈ children) :
    ∃ key, (key, v) ∈ h.entries a ∧ (key, w) ∈ h.entries b := by
  match a, b, hChildren with
  | .object a, .object b, hChildren =>
    rw [opposite?, Option.ite_none_right_eq_some] at hChildren
    obtain ⟨-, hMap⟩ := hChildren
    cases hMap
    obtain ⟨⟨name, u⟩, hField, hEq⟩ := List.mem_map.1 hMem
    obtain ⟨rfl, hw⟩ := Prod.mk.inj hEq
    exact ⟨.field name, Heap.mem_entries_object_iff.2 ⟨name, rfl, hField⟩,
      Heap.mem_entries_object_iff.2 ⟨name, rfl, (h.fields b).mem_toList_iff_get?.2 hw⟩⟩
  | .array a, .array b, hChildren =>
    rw [opposite?, Option.ite_none_right_eq_some] at hChildren
    obtain ⟨-, hMap⟩ := hChildren
    cases hMap
    obtain ⟨⟨u, x⟩, hZip, hEq⟩ := List.mem_map.1 hMem
    cases hEq
    obtain ⟨position, hPosition⟩ := List.mem_iff_getElem?.1 hZip
    rw [List.getElem?_zip_eq_some] at hPosition
    exact ⟨.index position, Heap.mem_entries_array_iff.2 ⟨position, rfl, hPosition.1⟩,
      Heap.mem_entries_array_iff.2 ⟨position, rfl, hPosition.2⟩⟩
  | .object a, .array b, hChildren => contradiction
  | .array a, .object b, hChildren => contradiction

/-- Children that are to be compared have owners in the heap. -/
theorem mem_pairs_of_opposite? (hChildren : opposite? h a b = some children)
    (hMem : (v, some w) ∈ children) : (a, b) ∈ pairs h := by
  obtain ⟨key, hv, hw⟩ := mem_opposite? hChildren hMem
  refine mem_pairs.2 ⟨?_, ?_⟩
  · by_contra hn
    rw [Heap.entries_eq_nil hn] at hv
    contradiction
  · by_contra hn
    rw [Heap.entries_eq_nil hn] at hw
    contradiction

/-- The children pair up if none of them lacks its counterpart. -/
theorem pairChildren_eq (h : Heap) (a b : Container) :
    pairChildren h a b =
      (opposite? h a b).bind (·.mapM fun (v, w?) => w?.map (v, ·)) := by
  match a, b with
  | .object a, .object b =>
    rw [pairChildren, opposite?]
    split
    · rw [Option.bind_some, List.mapM_map]
      rfl
    · rfl
  | .array a, .array b =>
    rw [pairChildren, opposite?]
    split
    -- no item lacks its counterpart
    · rw [Option.bind_some, List.mapM_map]
      refine Eq.trans ?_ (List.mapM_pure (m := Option) (f := id)).symm
      rw [List.map_id]
      rfl
    · rfl
  | .object a, .array b => rfl
  | .array a, .object b => rfl

end Children

/-! ## What a call leaves in progress -/

section Runs

variable {h : Heap} {pending after : List Assumption} {task : Task} {answer : Bool}

/-- No pair is taken out. -/
theorem Returns.keeps (hReturns : Returns h pending task answer after) : pending <:+ after := by
  induction hReturns with
  | known | other | done | missing => exact List.suffix_rfl
  | differ => exact List.suffix_cons _ _
  | recurse _ _ _ _ ih => exact (List.suffix_cons _ _).trans ih
  | stop _ ih => exact ih
  | next _ _ ihFirst ihRest => exact ihFirst.trans ihRest

/-- What is returned is decided by what is to be done. -/
theorem Returns.unique {answer' : Bool} {after' : List Assumption}
    (hReturns : Returns h pending task answer after)
    (hReturns' : Returns h pending task answer' after') : answer = answer' ∧ after = after' := by
  -- the rules exclude each other, except for the two that go by the answer to the first child
  induction hReturns generalizing answer' after' with
  | known hKind hKnown =>
    cases hReturns' with
    | known => exact ⟨rfl, rfl⟩
    | differ _ hNew | recurse _ hNew => exact absurd hKnown hNew
    | other hOther => exact absurd ⟨_, _, rfl, rfl, hKind⟩ hOther
  | differ hKind hNew hDiffer =>
    cases hReturns' with
    | known _ hKnown => exact absurd hKnown hNew
    | differ => exact ⟨rfl, rfl⟩
    | recurse _ _ hChildren => simp [hDiffer] at hChildren
    | other hOther => exact absurd ⟨_, _, rfl, rfl, hKind⟩ hOther
  | recurse hKind hNew hChildren _ ih =>
    cases hReturns' with
    | known _ hKnown => exact absurd hKnown hNew
    | differ _ _ hDiffer => simp [hDiffer] at hChildren
    | recurse _ _ hChildren' hLoop =>
      rw [hChildren] at hChildren'
      cases hChildren'
      exact ih hLoop
    | other hOther => exact absurd ⟨_, _, rfl, rfl, hKind⟩ hOther
  | other hOther =>
    cases hReturns' with
    | known hKind | differ hKind | recurse hKind => exact absurd ⟨_, _, rfl, rfl, hKind⟩ hOther
    | other => exact ⟨rfl, rfl⟩
  | done | missing =>
    cases hReturns'
    exact ⟨rfl, rfl⟩
  | stop _ ih =>
    cases hReturns' with
    | stop hCall => exact ih hCall
    | next hCall => simpa using (ih hCall).1
  | next _ _ ihFirst ihRest =>
    cases hReturns' with
    | stop hCall => simpa using (ihFirst hCall).1
    | next hCall hLoop =>
      obtain ⟨-, rfl⟩ := ihFirst hCall
      exact ihRest hLoop

end Runs

/-! ## Every call returns -/

/-- A loop returns if the calls do that it may make, whatever pairs are in progress by then. -/
theorem exists_returns_loop {h : Heap} {pending : List Assumption}
    {children : List (Value × Option Value)}
    (hCalls : ∀ v w, (v, some w) ∈ children → ∀ pending', pending <:+ pending' →
      ∃ answer after, Returns h pending' (.call v w) answer after) :
    ∃ answer after, Returns h pending (.loop children) answer after := by
  induction children generalizing pending with
  | nil => exact ⟨_, _, .done⟩
  | cons child rest ih =>
    obtain ⟨v, w?⟩ := child
    cases w? with
    | none => exact ⟨_, _, .missing⟩
    | some w =>
      obtain ⟨answer, between, hFirst⟩ := hCalls v w List.mem_cons_self pending List.suffix_rfl
      cases answer with
      | false => exact ⟨_, _, .stop hFirst⟩
      | true =>
        obtain ⟨answer, after, hRest⟩ := ih fun v w hMem pending' hSuffix =>
          hCalls v w (List.mem_cons_of_mem _ hMem) pending' (hFirst.keeps.trans hSuffix)
        exact ⟨_, _, .next hFirst hRest⟩

theorem unmarked_le_of_subset {α : Type} [DecidableEq α] {all marked marked' : List α}
    (hSub : marked ⊆ marked') : unmarked all marked' ≤ unmarked all marked := by
  refine List.countP_mono_left fun a _ ha => ?_
  rw [decide_eq_true_eq] at ha ⊢
  exact fun hMem => ha (hSub hMem)

theorem exists_returns (h : Heap) (pending : List Assumption) (v w : Value) :
    ∃ answer after, Returns h pending (.call v w) answer after := by
  -- the fewer pairs are not in progress, the fewer calls are nested
  induction hLeft : unmarked (pairs h) pending using Nat.strong_induction_on
    generalizing pending v w with
  | _ left ih =>
    by_cases hKind : OneKind v w
    · obtain ⟨a, b, rfl, rfl, hKind⟩ := hKind
      by_cases hKnown : a = b ∨ (a, b) ∈ pending
      · exact ⟨_, _, .known hKind hKnown⟩
      · cases hChildren : opposite? h a b with
        | none => exact ⟨_, _, .differ hKind hKnown hChildren⟩
        | some children =>
          have hLoop : ∃ answer after,
              Returns h ((a, b) :: pending) (.loop children) answer after := by
            refine exists_returns_loop fun v w hMem pending' hSuffix => ?_
            have hPair := mem_pairs_of_opposite? hChildren hMem
            have hLess : unmarked (pairs h) pending' < left := calc
              unmarked (pairs h) pending' ≤ unmarked (pairs h) ((a, b) :: pending) :=
                unmarked_le_of_subset hSuffix.subset
              _ < unmarked (pairs h) pending :=
                unmarked_cons_lt hPair fun hMem => hKnown (.inr hMem)
              _ = left := hLeft
            exact ih _ hLess pending' v w rfl
          obtain ⟨answer, after, hLoop⟩ := hLoop
          exact ⟨_, _, .recurse hKind hKnown hChildren hLoop⟩
    · exact ⟨_, _, .other hKind⟩

/-! ## Where the pairs in progress come from -/

section Sources

variable {h : Heap} {a b v w : Value} {pending after : List Assumption} {task : Task}
  {answer : Bool}

/-- What is met from the values is met from `a` and from `b`. -/
def Within (h : Heap) (a b v w : Value) : Prop :=
  (∀ c, h.Meets v c → h.Meets a c) ∧ ∀ c, h.Meets w c → h.Meets b c

/-- All calls that the task may make are within `a` and `b`. -/
def Task.Within (h : Heap) (a b : Value) : Task → Prop
  | .call v w => Search.Within h a b v w
  | .loop children => ∀ v w, (v, some w) ∈ children → Search.Within h a b v w

/-- Pairs in progress in a comparison of `a` and `b`. -/
structure InProgress (h : Heap) (a b : Value) (pending : List Assumption) : Prop where
  nodup : pending.Nodup
  met : ∀ p ∈ pending, h.Meets a p.1 ∧ h.Meets b p.2
  oneKind : ∀ p ∈ pending, p.1.isArray = p.2.isArray

theorem InProgress.cons {c d : Container} (hPending : InProgress h a b pending)
    (hWithin : Within h a b (.container c) (.container d)) (hKind : c.isArray = d.isArray)
    (hNew : (c, d) ∉ pending) : InProgress h a b ((c, d) :: pending) where
  nodup := List.nodup_cons.2 ⟨hNew, hPending.nodup⟩
  met := List.forall_mem_cons.2
    ⟨⟨hWithin.1 c (h.meets_self c), hWithin.2 d (h.meets_self d)⟩, hPending.met⟩
  oneKind := List.forall_mem_cons.2 ⟨hKind, hPending.oneKind⟩

theorem Within.children {c d : Container} {children : List (Value × Option Value)}
    (hWithin : Within h a b (.container c) (.container d))
    (hChildren : opposite? h c d = some children) : (Task.loop children).Within h a b := by
  intro v w hMem
  obtain ⟨key, hv, hw⟩ := mem_opposite? hChildren hMem
  exact ⟨fun x hx => hWithin.1 x (hx.of_child hv), fun x hx => hWithin.2 x (hx.of_child hw)⟩

theorem Returns.inProgress (hReturns : Returns h pending task answer after)
    (hPending : InProgress h a b pending) (hWithin : task.Within h a b) :
    InProgress h a b after := by
  induction hReturns with
  | known | other | done | missing => exact hPending
  | differ hKind hNew => exact hPending.cons hWithin hKind fun hMem => hNew (.inr hMem)
  | recurse hKind hNew hChildren _ ih =>
    have hOpened := hPending.cons hWithin hKind fun hMem => hNew (.inr hMem)
    exact ih hOpened (Within.children hWithin hChildren)
  | stop _ ih => exact ih hPending (hWithin _ _ List.mem_cons_self)
  | next _ _ ihFirst ihRest =>
    have hBetween := ihFirst hPending (hWithin _ _ List.mem_cons_self)
    exact ihRest hBetween fun v w hMem => hWithin v w (List.mem_cons_of_mem _ hMem)

theorem finite_meets (h : Heap) (v : Value) : {c | h.Meets v c}.Finite := by
  cases hRoot : v.container? with
  | none => exact Set.finite_empty.subset fun c hc => Heap.not_meets_scalar hRoot c hc
  | some root =>
    obtain rfl := Value.container?_eq_some_iff.1 hRoot
    refine ((tour h [⟨root, []⟩] .empty).map Stop.container).finite_toSet.subset fun c hc => ?_
    obtain ⟨s, hs, rfl⟩ := reaches_iff_mem_tour.1 (Heap.reaches_iff_meets.2 hc)
    exact List.mem_map_of_mem hs

/-- There are not more pairs in progress than there are pairs of containers met. -/
theorem InProgress.length_le (hPending : InProgress h a b pending) :
    pending.length ≤ {c | h.Meets a c}.ncard * {d | h.Meets b d}.ncard := by
  have hFinite := (finite_meets h a).prod (finite_meets h b)
  have hSubset : (pending.toFinset : Set Assumption) ⊆ {c | h.Meets a c} ×ˢ {d | h.Meets b d} :=
    fun p hp => hPending.met p (List.mem_toFinset.1 hp)
  calc pending.length = pending.toFinset.card := (List.toFinset_card_of_nodup hPending.nodup).symm
    _ = (pending.toFinset : Set Assumption).ncard := (Set.ncard_coe_finset _).symm
    _ ≤ _ := Set.ncard_le_ncard hSubset hFinite
    _ = _ := Set.ncard_prod

end Sources

/-! ## What is returned -/

/-- The pairs that a task compares one after the other; `none` if a child lacks its counterpart. -/
def Task.waiting? : Task → Option (List (Value × Value))
  | .call v w => some [(v, w)]
  | .loop children => children.mapM fun (v, w?) => w?.map (v, ·)

theorem Task.waiting?_cons (v w : Value) (rest : List (Value × Option Value)) :
    (Task.loop ((v, some w) :: rest)).waiting? = (Task.loop rest).waiting?.map ((v, w) :: ·) := by
  rw [waiting?, waiting?, List.mapM_cons]
  cases rest.mapM fun (v, w?) => w?.map (v, ·) <;> rfl

/-- Values that are not containers of one kind are compared as they are. -/
theorem agree_otherwise {h : Heap} {v w : Value} {pending : List Assumption}
    (hOneKind : ∀ p ∈ pending, p.1.isArray = p.2.isArray) (hOther : ¬ OneKind v w)
    (rest : List (Value × Value)) :
    agree h pending ((v, w) :: rest) = if v == w then agree h pending rest else none := by
  by_cases hContainers : ∃ c d, v = .container c ∧ w = .container d
  -- containers of different kinds are not in progress, and have no children to compare
  · obtain ⟨c, d, rfl, rfl⟩ := hContainers
    have hKind : c.isArray ≠ d.isArray := fun hKind => hOther ⟨c, d, rfl, rfl, hKind⟩
    have hNew : ¬ (c = d ∨ (c, d) ∈ pending) := by
      rintro (rfl | hMem)
      · exact hKind rfl
      · exact hKind (hOneKind _ hMem)
    have hDiffer : pairChildren h c d = none := by
      cases c <;> cases d <;> first | rfl | exact absurd rfl hKind
    have hEq : (Value.container c == .container d) = false := by
      refine beq_eq_false_iff_ne (α := Container) |>.2 fun hcd => hNew (.inl hcd)
    rw [hEq]
    exact agree_differ hNew hDiffer
  · exact agree_other fun c d hc hd => hContainers ⟨c, d, hc, hd⟩

/-- A task that returns true is done with the pairs that it compares, with the pairs assumed that it
leaves in progress; one that returns false has found a difference. -/
theorem Returns.agree_eq {h : Heap} {a b : Value} {pending after : List Assumption} {task : Task}
    {answer : Bool} (hReturns : Returns h pending task answer after)
    (hPending : InProgress h a b pending) (hWithin : task.Within h a b) :
    (task.waiting? = none → answer = false) ∧
      ∀ waiting, task.waiting? = some waiting → ∀ rest,
        agree h pending (waiting ++ rest) = if answer then agree h after rest else none := by
  induction hReturns with
  | known hKind hKnown =>
    refine ⟨(nomatch ·), fun waiting hWaiting rest => ?_⟩
    cases hWaiting
    exact agree_skip hKnown
  | @differ c d _ hKind hNew hDiffer =>
    refine ⟨fun _ => rfl, fun waiting hWaiting rest => ?_⟩
    cases hWaiting
    exact agree_differ hNew (by rw [pairChildren_eq, hDiffer]; rfl)
  | @recurse c d _ _ children _ hKind hNew hChildren _ ih =>
    refine ⟨(nomatch ·), fun waiting hWaiting rest => ?_⟩
    cases hWaiting
    have hPair : pairChildren h c d = (Task.loop children).waiting? := by
      rw [pairChildren_eq, hChildren]
      rfl
    obtain ⟨hMissing, hAgree⟩ := ih (hPending.cons hWithin hKind fun hMem => hNew (.inr hMem))
      (Within.children hWithin hChildren)
    cases hWaiting : (Task.loop children).waiting? with
    | none =>
      rw [hMissing hWaiting]
      exact agree_differ hNew (hPair.trans hWaiting)
    | some waiting =>
      rw [← hAgree waiting hWaiting rest]
      exact agree_open hNew (hPair.trans hWaiting)
  | @other v w pending hOther =>
    refine ⟨(nomatch ·), fun waiting hWaiting rest => ?_⟩
    cases hWaiting
    exact agree_otherwise hPending.oneKind hOther rest
  | done =>
    refine ⟨fun _ => by contradiction, fun waiting hWaiting rest => ?_⟩
    cases hWaiting
    rfl
  | missing =>
    refine ⟨fun _ => rfl, fun waiting hWaiting => ?_⟩
    rw [Task.waiting?, List.mapM_cons] at hWaiting
    contradiction
  | @stop v w others _ _ _ ih =>
    refine ⟨fun _ => rfl, fun waiting hWaiting rest => ?_⟩
    rw [Task.waiting?_cons] at hWaiting
    obtain ⟨waiting, -, rfl⟩ := Option.map_eq_some_iff.1 hWaiting
    exact (ih hPending (hWithin _ _ List.mem_cons_self)).2 _ rfl _
  | @next v w others _ _ _ _ hFirst _ ihFirst ihRest =>
    have hFirstWithin : (Task.call v w).Within h a b := hWithin _ _ List.mem_cons_self
    obtain ⟨-, hAgreeFirst⟩ := ihFirst hPending hFirstWithin
    obtain ⟨hMissing, hAgreeRest⟩ := ihRest (hFirst.inProgress hPending hFirstWithin)
      fun v w hMem => hWithin v w (List.mem_cons_of_mem _ hMem)
    rw [Task.waiting?_cons]
    refine ⟨fun hNone => hMissing (Option.map_eq_none_iff.1 hNone), fun waiting hWaiting rest => ?_⟩
    obtain ⟨waiting, hOthers, rfl⟩ := Option.map_eq_some_iff.1 hWaiting
    exact (hAgreeFirst _ rfl _).trans (hAgreeRest waiting hOthers rest)

theorem Returns.eq_structuralEq {h : Heap} {a b : Value} {after : List Assumption} {answer : Bool}
    (hReturns : Returns h [] (.call a b) answer after) : structuralEq h a b = answer := by
  have hStart : InProgress h a b [] := ⟨.nil, by simp, by simp⟩
  have hAgree := (hReturns.agree_eq hStart ⟨fun _ hc => hc, fun _ hd => hd⟩).2 _ rfl []
  rw [structuralEq, ← List.append_nil [(a, b)], hAgree]
  cases answer with
  | true =>
    rw [agree]
    rfl
  | false => rfl

/-! ## Nested calls -/

section Calls

variable {h : Heap} {a b : Value} {c d : Call}

/-- A call that makes another has put its own two containers in progress, a pair that was not
there. -/
theorem Makes.grows (hMakes : Makes h c d) :
    ∃ p : Assumption, c.left = .container p.1 ∧ c.right = .container p.2 ∧ p ∉ c.pending ∧
      p :: c.pending <:+ d.pending := by
  cases hMakes with
  | child hKind hNew _ hFront =>
    exact ⟨(_, _), rfl, rfl, fun hMem => hNew (.inr hMem), hFront.keeps⟩

/-- A call in a comparison of `a` and `b`. -/
structure Proper (h : Heap) (a b : Value) (c : Call) : Prop where
  pending : InProgress h a b c.pending
  within : Within h a b c.left c.right

theorem Makes.proper (hMakes : Makes h c d) (hProper : Proper h a b c) : Proper h a b d := by
  cases hMakes with
  | child hKind hNew hChildren hFront =>
    have hOpened := hProper.pending.cons hProper.within hKind fun hMem => hNew (.inr hMem)
    have hAll := Within.children hProper.within hChildren
    exact ⟨hFront.inProgress hOpened fun v w hMem => hAll v w (List.mem_append_left _ hMem),
      hAll _ _ (List.mem_append_right _ List.mem_cons_self)⟩

theorem proper_start (h : Heap) (a b : Value) : Proper h a b ⟨[], a, b⟩ where
  pending := ⟨.nil, by simp, by simp⟩
  within := ⟨fun _ hc => hc, fun _ hd => hd⟩

theorem proper_of_calls (hCalls : Relation.ReflTransGen (Makes h) ⟨[], a, b⟩ c) :
    Proper h a b c := by
  induction hCalls with
  | refl => exact proper_start h a b
  | tail _ hMakes ih => exact hMakes.proper ih

/-- Each of the calls nested in one another adds a pair, so there are not more of them than there
are pairs left. -/
theorem length_le_of_nested {calls : List Call} (hNested : (c :: calls).IsChain (Makes h))
    (hProper : Proper h a b c) :
    calls.length + c.pending.length ≤ {x | h.Meets a x}.ncard * {y | h.Meets b y}.ncard := by
  induction calls generalizing c with
  | nil => simpa using hProper.pending.length_le
  | cons d calls ih =>
    obtain ⟨hMakes, hRest⟩ := List.isChain_cons_cons.1 hNested
    obtain ⟨p, -, -, -, hGrows⟩ := hMakes.grows
    have hLength := hGrows.length_le
    have hLater := ih hRest (hMakes.proper hProper)
    rw [List.length_cons] at hLength ⊢
    omega

end Calls

/-- Deep equality ends on every pair of graphs. The outermost call returns, and what it returns is
deep equality. Every call made on the way returns exactly one answer, and takes no pair out of those
in progress. A call that makes another one has put the pair of its two containers in progress, which
was not there before, and is a pair of a container met from the first value and one met from the
second. There are finitely many of these, and no more calls are nested below the outermost than
there are such pairs. -/
theorem structuralEq_ends (h : Heap) (a b : Value) :
    (∃ after, Returns h [] (.call a b) (structuralEq h a b) after) ∧
    (∀ c, Relation.ReflTransGen (Makes h) ⟨[], a, b⟩ c →
      (∃ answer after, Returns h c.pending (.call c.left c.right) answer after ∧
        c.pending <:+ after ∧
        ∀ answer' after', Returns h c.pending (.call c.left c.right) answer' after' →
          answer' = answer ∧ after' = after) ∧
      ∀ d, Makes h c d → ∃ p : Assumption,
        c.left = .container p.1 ∧ c.right = .container p.2 ∧ h.Meets a p.1 ∧ h.Meets b p.2 ∧
          p ∉ c.pending ∧ p :: c.pending <:+ d.pending) ∧
    {x | h.Meets a x}.Finite ∧ {y | h.Meets b y}.Finite ∧
    ∀ calls : List Call, (⟨[], a, b⟩ :: calls).IsChain (Makes h) →
      calls.length ≤ {x | h.Meets a x}.ncard * {y | h.Meets b y}.ncard := by
  refine ⟨?_, fun c hCalls => ⟨?_, fun d hMakes => ?_⟩, finite_meets h a, finite_meets h b,
    fun calls hNested => length_le_of_nested hNested (proper_start h a b)⟩
  · obtain ⟨answer, after, hReturns⟩ := exists_returns h [] a b
    rw [hReturns.eq_structuralEq]
    exact ⟨after, hReturns⟩
  · obtain ⟨answer, after, hReturns⟩ := exists_returns h c.pending c.left c.right
    exact ⟨answer, after, hReturns, hReturns.keeps, fun _ _ hOther => hOther.unique hReturns⟩
  · obtain ⟨p, hLeft, hRight, hNew, hGrows⟩ := hMakes.grows
    have hWithin := (proper_of_calls hCalls).within
    rw [hLeft, hRight] at hWithin
    exact ⟨p, hLeft, hRight, hWithin.1 _ (h.meets_self _), hWithin.2 _ (h.meets_self _), hNew,
      hGrows⟩

/-- An object that holds itself, and two objects that hold each other. -/
def unevenHeap : Heap where
  objects := #[
    .ofList [("next", .container (.object 0))],
    .ofList [("next", .container (.object 2))],
    .ofList [("next", .container (.object 1))]]
  arrays := #[]

/-- Cycles of one and of two objects: each of the two pairs is put in progress before the outermost
call is met again. -/
theorem structuralEq_ends_uneven :
    structuralEq unevenHeap (.container (.object 0)) (.container (.object 1)) = true ∧
    (∃ after, Returns unevenHeap [] (.call (.container (.object 0)) (.container (.object 1)))
      true after) ∧
    2 ≤ {x | unevenHeap.Meets (.container (.object 0)) x}.ncard *
      {y | unevenHeap.Meets (.container (.object 1)) y}.ncard := by
  have hEq : structuralEq unevenHeap (.container (.object 0)) (.container (.object 1)) = true := by
    cbv
  have hFirst : Makes unevenHeap ⟨[], .container (.object 0), .container (.object 1)⟩
      ⟨[(.object 0, .object 1)], .container (.object 0), .container (.object 2)⟩ := by
    have hChildren : opposite? unevenHeap (.object 0) (.object 1) =
        some ([] ++ (.container (.object 0), some (.container (.object 2))) :: []) := rfl
    exact .child rfl (by decide) hChildren .done
  have hSecond : Makes unevenHeap
      ⟨[(.object 0, .object 1)], .container (.object 0), .container (.object 2)⟩
      ⟨[(.object 0, .object 2), (.object 0, .object 1)], .container (.object 0),
        .container (.object 1)⟩ := by
    have hChildren : opposite? unevenHeap (.object 0) (.object 2) =
        some ([] ++ (.container (.object 0), some (.container (.object 1))) :: []) := rfl
    exact .child rfl (by decide) hChildren .done
  obtain ⟨hReturns, -, -, -, hNested⟩ :=
    structuralEq_ends unevenHeap (.container (.object 0)) (.container (.object 1))
  rw [hEq] at hReturns
  have hLength := hNested _ (.cons_cons hFirst (.cons_cons hSecond (.singleton _)))
  exact ⟨hEq, hReturns, hLength⟩

end DocGraph.Search
