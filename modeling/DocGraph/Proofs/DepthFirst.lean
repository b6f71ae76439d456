import DocGraph.Search.Occurrence

/-!
# DocGraph: the search for a value as a recursion

The search for a value keeps a stack on which a container may stand many times, under different
paths, among containers that were pushed long before it. Told as a recursion there is no stack: a
container entered before is left alone, and of any other all children are compared, and then those
that are containers are visited, the last first, each under its path from this container.

The two do the same in the same order. What the stack holds below a container are the calls that the
recursion has still to make: a search from a stack is a visit of its top, then a search from the
rest of the stack with all that has been entered by then.

* `sweep_eq_andThen`: a visit takes the place of the top of a stack, and visits of children take the
  place of what is pushed for them, by induction on the recursion.
* `findValueReport_eq_visit`: so a report is that of a visit of the root.
-/

namespace DocGraph.Search

/-! ## The recursion -/

/-- What a visit reports, and what is entered when it is over. -/
structure Visit (h : Heap) (before : Visited) where
  report : Report
  visited : Visited
  /-- What was entered before is not left to be entered again. -/
  remaining_le : visited.remaining h ≤ before.remaining h

mutual

/-- Enters a container that was reached by `path`, unless it has been entered before: compares its
children in order, then visits them from the last to the first. -/
def visit (h : Heap) (judge : Value → Verdict) (c : Container) (path : Option String)
    (visited : Visited) : Visit h visited :=
  match _h : visited.enter? c with
  | none => ⟨.empty, visited, Nat.le_refl _⟩
  | some visited' =>
    let below := visitAll h judge path (h.entries c).reverse visited'
    ⟨examine judge path (h.entries c) ++ below.report, below.visited,
      Nat.le_trans below.remaining_le (Visited.remaining_le_of_enter? h _h)⟩
termination_by (visited.remaining h, 1)
decreasing_by exact Visited.lex_lt_of_enter? _h fun hc => by simp [hc]

/-- Visits the containers among the children of the container at `path`, one after the other. -/
def visitAll (h : Heap) (judge : Value → Verdict) (path : Option String)
    (children : List (Key × Value)) (visited : Visited) : Visit h visited :=
  match children with
  | [] => ⟨.empty, visited, Nat.le_refl _⟩
  | (key, .container c) :: rest =>
    let first := visit h judge c (some (Path.child path key)) visited
    let others := visitAll h judge path rest first.visited
    ⟨first.report ++ others.report, others.visited,
      Nat.le_trans others.remaining_le first.remaining_le⟩
  | _ :: rest => visitAll h judge path rest visited
termination_by (visited.remaining h, 2 * children.length)
decreasing_by
  -- one child of several
  · refine Prod.Lex.right _ ?_
    rw [List.length_cons]
    omega
  -- the others, with no more left to enter than before
  · rcases Nat.lt_or_eq_of_le first.remaining_le with hlt | heq
    · exact Prod.Lex.left _ _ hlt
    · rw [heq]
      exact Prod.Lex.right _ (by simp)
  -- a child that is no container
  · exact Prod.Lex.right _ (by simp)

end

section Step

variable {h : Heap} {judge : Value → Verdict} {c : Container} {path : Option String}
  {visited visited' : Visited}

theorem visit_skip (hEnter : visited.enter? c = none) :
    visit h judge c path visited = ⟨.empty, visited, Nat.le_refl _⟩ := by
  rw [visit]
  split
  · rfl
  · simp_all

theorem visit_enter (hEnter : visited.enter? c = some visited') :
    (visit h judge c path visited).report = examine judge path (h.entries c) ++
        (visitAll h judge path (h.entries c).reverse visited').report ∧
      (visit h judge c path visited).visited =
        (visitAll h judge path (h.entries c).reverse visited').visited := by
  rw [visit]
  split
  · simp_all
  · rename_i entered hEntered
    have hEq : entered = visited' := Option.some.inj (hEntered.symm.trans hEnter)
    subst hEq
    exact ⟨rfl, rfl⟩

end Step

/-! ## The stack as calls still to be made -/

/-- A search from `stack` once a visit is over. -/
def Visit.andThen {h : Heap} {before : Visited} (v : Visit h before) (judge : Value → Verdict)
    (stack : List Place) : Sweep :=
  let later := sweep h judge stack v.visited
  ⟨v.report ++ later.report, later.entered⟩

/-- A visit does what a search does with the top of its stack, and visits of children do what it
does with the places pushed for them. -/
theorem sweep_eq_andThen (h : Heap) (judge : Value → Verdict) :
    (∀ c path visited, ∀ stack : List Place,
      sweep h judge ((c, path) :: stack) visited =
        (visit h judge c path visited).andThen judge stack) ∧
    ∀ path children visited, ∀ stack : List Place,
      sweep h judge (inner path children ++ stack) visited =
        (visitAll h judge path children visited).andThen judge stack := by
  refine visit.mutual_induct h judge _ _ ?skip ?enter ?nil ?container ?scalar
  case skip =>
    intro c path visited hEnter stack
    rw [sweep_skip hEnter, visit_skip hEnter]
    rfl
  case enter =>
    intro c path visited visited' hEnter ih stack
    obtain ⟨hReport, hVisited⟩ := @visit_enter h judge c path visited visited' hEnter
    have hPushed : (inner path (h.entries c)).reverse = inner path (h.entries c).reverse := by
      rw [inner, inner, List.filterMap_reverse]
    have hBelow := ih stack
    rw [← hPushed] at hBelow
    calc sweep h judge ((c, path) :: stack) visited
        = ⟨(sweep h judge ((c, path) :: stack) visited).report,
            (sweep h judge ((c, path) :: stack) visited).entered⟩ := rfl
      _ = (visit h judge c path visited).andThen judge stack := by
        rw [report_sweep_enter hEnter, entered_sweep_enter hEnter, hBelow, Visit.andThen,
          Visit.andThen, hReport, hVisited, Report.append_assoc]
  case nil =>
    intro path visited stack
    rw [visitAll]
    rfl
  case container =>
    intro path visited key c rest first hFirst hRest _ stack
    have hInner : inner path ((key, .container c) :: rest) =
        (c, some (Path.child path key)) :: inner path rest := rfl
    rw [hInner, List.cons_append, hFirst, visitAll, Visit.andThen, hRest, Visit.andThen,
      Visit.andThen, Report.append_assoc]
  case scalar =>
    -- nothing is pushed for the child, and nothing is visited
    intro path visited child rest hScalar ih stack
    have hValue : child.2.container? = none := by
      rw [Option.eq_none_iff_forall_ne_some]
      intro c hc
      exact hScalar child.1 c (by rw [← Value.container?_eq_some_iff.1 hc])
    have hInner : inner path (child :: rest) = inner path rest := by
      simp [inner, hValue]
    rw [hInner, ih, visitAll]
    exact hScalar

/-- A search for a value reports what visits report that go down from the root by recursion: a
container is entered at its first visit, its children are compared in order, and those that are
containers are visited from the last to the first, each under its path. Paths and faults come in the
same order, whatever the graph and the comparator, and there are as many containers entered. -/
theorem findValueReport_eq_visit (h : Heap) (root target : Value) (comparator : Comparator) :
    findValueReport h root target comparator =
        (match root with
        | .container c => (visit h (comparator.judge h · target) c none .empty).report
        | _ => .empty) ∧
      (findValue? h root target comparator).map Sweep.entered =
        root.container?.map fun c =>
          (visit h (comparator.judge h · target) c none .empty).visited.size := by
  have hRun : ∀ c, sweep h (comparator.judge h · target) [(c, none)] .empty =
      ⟨(visit h (comparator.judge h · target) c none .empty).report,
        (visit h (comparator.judge h · target) c none .empty).visited.size⟩ := by
    intro c
    have hVisit := (sweep_eq_andThen h (comparator.judge h · target)).1 c none .empty []
    rw [hVisit, Visit.andThen, sweep, Report.append_empty]
  rw [findValueReport, findValue?]
  cases root with
  | container c =>
    have hMap : (Value.container c).container?.map
        (fun c => sweep h (comparator.judge h · target) [(c, none)] .empty) = some _ :=
      congrArg some (hRun c)
    rw [hMap]
    exact ⟨rfl, rfl⟩
  | absent | null | bool | number | text => exact ⟨rfl, rfl⟩

end DocGraph.Search
