import DocGraph.Path.Render
import DocGraph.Search.Error
import DocGraph.Search.Visited
import DocGraph.Text.Blank

/-!
# DocGraph: the shallowest field of a name

Containers are looked at level by level, those of one level in the order in which they were
reached, and the first one that owns the name wins. Each container is entered once, so the
search ends on every graph: what is left to enter, then the length of the queue, goes down.
-/

namespace DocGraph.Search

/-- A container waiting to be looked at, with the path it was reached by. -/
structure Pending where
  container : Container
  path : Option String
  depth : Nat

/-- A field found by its name. -/
structure KeyMatch where
  path : String
  /-- Steps from the root to the owner of the field. -/
  depth : Nat
  value : Value

/-- What a search for a name found, and how many containers it entered. -/
structure KeyOutcome where
  found : Option KeyMatch
  entered : Nat

/-- The key by which a container knows the field that reads `name`. -/
def keyIn (c : Container) (name : String) : Key :=
  match c, Index.parse? name with
  | .array _, some position => .index position
  | _, _ => .field name

/-- The containers among the children of a container that waits. -/
def Pending.children (h : Heap) (p : Pending) : List Pending :=
  (h.entries p.container).filterMap fun (key, v) =>
    v.container?.map fun c => ⟨c, some (Path.child p.path key), p.depth + 1⟩

/-- Searches the queue; children join it at its end. -/
def searchKey (h : Heap) (name : String) (queue : List Pending) (visited : Visited) :
    KeyOutcome :=
  match queue with
  | [] => ⟨none, visited.size⟩
  | p :: rest =>
    match _h : visited.enter? p.container with
    | none => searchKey h name rest visited
    | some visited' =>
      match h.ownField p.container name with
      | some v =>
        ⟨some ⟨Path.child p.path (keyIn p.container name), p.depth, v⟩, visited'.size⟩
      | none => searchKey h name (rest ++ p.children h) visited'
termination_by (visited.remaining h, queue.length)
decreasing_by
  -- entered before: the queue is shorter
  · exact Prod.Lex.right _ (by simp)
  -- entered now: fewer are left, or nothing joins the queue
  · exact Visited.lex_lt_of_enter? _h fun hc => by simp [Pending.children, hc]

section Step

variable {h : Heap} {name : String} {p : Pending} {rest : List Pending} {visited visited' : Visited}

theorem searchKey_skip (hEnter : visited.enter? p.container = none) :
    searchKey h name (p :: rest) visited = searchKey h name rest visited := by
  rw [searchKey]
  split
  · rfl
  · simp_all

theorem searchKey_stop {v : Value} (hEnter : visited.enter? p.container = some visited')
    (hOwn : h.ownField p.container name = some v) :
    searchKey h name (p :: rest) visited =
      ⟨some ⟨Path.child p.path (keyIn p.container name), p.depth, v⟩, visited'.size⟩ := by
  rw [searchKey]
  split <;> simp_all

theorem searchKey_expand (hEnter : visited.enter? p.container = some visited')
    (hOwn : h.ownField p.container name = none) :
    searchKey h name (p :: rest) visited = searchKey h name (rest ++ p.children h) visited' := by
  rw [searchKey]
  split <;> simp_all

end Step

/-- The shallowest field called `name` below `root`; a root that is a scalar has none. -/
def findKey (h : Heap) (root : Value) (name : String) : Except Error (Option KeyOutcome) :=
  if Text.isBlankText name then .error .blankKey
  else .ok (root.container?.map fun c => searchKey h name [⟨c, none, 0⟩] .empty)

/-- The field found, if any. -/
def findKeyMatch (h : Heap) (root : Value) (name : String) : Except Error (Option KeyMatch) :=
  (findKey h root name).map fun outcome => outcome.bind KeyOutcome.found

/-- The value of the field found, `absent` if there is none. -/
def findByKey (h : Heap) (root : Value) (name : String) : Except Error Value :=
  (findKeyMatch h root name).map fun found => (found.map KeyMatch.value).getD .absent

end DocGraph.Search
