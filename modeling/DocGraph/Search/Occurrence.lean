import DocGraph.Path.Render
import DocGraph.Search.Comparator
import DocGraph.Search.Visited

/-!
# DocGraph: every occurrence of a value

Each child of each container is a candidate, compared once, under the path by which its owner
was entered. The container pushed last is entered next. A container is entered once, yet every
edge that leads to it is a candidate of its own.
-/

namespace DocGraph.Search

/-- A candidate on which the comparator failed. -/
structure Fault where
  path : String
  message : String
deriving DecidableEq

def Fault.text (f : Fault) : String :=
  "comparator failed at `" ++ f.path ++ "`: " ++ f.message

/-- The paths of all occurrences and the faults met, both in the order of comparison. -/
structure Report where
  paths : List String
  faults : List Fault
deriving DecidableEq

namespace Report

def empty : Report := ⟨[], []⟩

def append (r s : Report) : Report :=
  ⟨r.paths ++ s.paths, r.faults ++ s.faults⟩

instance : Append Report := ⟨append⟩

@[simp]
theorem paths_append (r s : Report) : (r ++ s).paths = r.paths ++ s.paths := rfl

@[simp]
theorem faults_append (r s : Report) : (r ++ s).faults = r.faults ++ s.faults := rfl

theorem append_empty (r : Report) : r ++ empty = r := by
  show append r empty = r
  simp [append, empty]

theorem append_assoc (r s t : Report) : r ++ s ++ t = r ++ (s ++ t) := by
  show append (append r s) t = append r (append s t)
  simp only [append, List.append_assoc]

/-- The report on one candidate. -/
def ofVerdict (path : String) : Verdict → Report
  | .accepted => ⟨[path], []⟩
  | .rejected => ⟨[], []⟩
  | v => ⟨[], (v.fault?.map (⟨path, ·⟩)).toList⟩

end Report

/-- A container to be entered and the path it was reached by; the root has none. -/
abbrev Place := Container × Option String

/-- Compares the children of a container entered under `path`. -/
def examine (judge : Value → Verdict) (path : Option String) (entries : List (Key × Value)) :
    Report :=
  match entries with
  | [] => .empty
  | (key, v) :: rest => .ofVerdict (Path.child path key) (judge v) ++ examine judge path rest

/-- The containers among the children of a container entered under `path`. -/
def inner (path : Option String) (entries : List (Key × Value)) : List Place :=
  entries.filterMap fun (key, v) => v.container?.map (·, some (Path.child path key))

/-- A finished search: its report and how many containers it entered. -/
structure Sweep where
  report : Report
  entered : Nat

/-- Searches from the stack, whose top comes first. -/
def sweep (h : Heap) (judge : Value → Verdict) (stack : List Place) (visited : Visited) : Sweep :=
  match stack with
  | [] => ⟨.empty, visited.size⟩
  | (c, path) :: rest =>
    match _h : visited.enter? c with
    | none => sweep h judge rest visited
    | some visited' =>
      let below := sweep h judge ((inner path (h.entries c)).reverse ++ rest) visited'
      { below with report := examine judge path (h.entries c) ++ below.report }
termination_by (visited.remaining h, stack.length)
decreasing_by
  -- entered before: the stack is shorter
  · exact Prod.Lex.right _ (by simp)
  -- entered now: fewer are left, or there is nothing to push
  · exact Visited.lex_lt_of_enter? _h fun hc => by simp [inner, hc]

section Step

variable {h : Heap} {judge : Value → Verdict} {c : Container} {path : Option String}
  {rest : List Place} {visited visited' : Visited}

theorem sweep_skip (hEnter : visited.enter? c = none) :
    sweep h judge ((c, path) :: rest) visited = sweep h judge rest visited := by
  rw [sweep]
  split
  · rfl
  · simp_all

theorem report_sweep_enter (hEnter : visited.enter? c = some visited') :
    (sweep h judge ((c, path) :: rest) visited).report = examine judge path (h.entries c) ++
      (sweep h judge ((inner path (h.entries c)).reverse ++ rest) visited').report := by
  rw [sweep]
  split <;> simp_all

theorem entered_sweep_enter (hEnter : visited.enter? c = some visited') :
    (sweep h judge ((c, path) :: rest) visited).entered =
      (sweep h judge ((inner path (h.entries c)).reverse ++ rest) visited').entered := by
  rw [sweep]
  split <;> simp_all

end Step

/-- Searches below `root`; a root that is a scalar is not searched. -/
def findValue? (h : Heap) (root target : Value) (comparator : Comparator) : Option Sweep :=
  root.container?.map fun c => sweep h (comparator.judge h · target) [(c, none)] .empty

/-- The occurrences of `target` below `root`, and the faults. -/
def findValueReport (h : Heap) (root target : Value) (comparator : Comparator) : Report :=
  ((findValue? h root target comparator).map Sweep.report).getD .empty

/-- The paths of the occurrences of `target`. -/
def findByValue (h : Heap) (root target : Value) (comparator : Comparator) : List String :=
  (findValueReport h root target comparator).paths

/-- Like `findByValue`, with the comparator by its name and `strict` if none is given. -/
def findByValueNamed (h : Heap) (root target : Value) (name : Option String) :
    Except Error (List String) :=
  match name with
  | none => .ok (findByValue h root target .strict)
  | some name => (Comparator.ofName name).map (findByValue h root target)

end DocGraph.Search
