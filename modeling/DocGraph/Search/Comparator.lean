import DocGraph.Search.Error
import DocGraph.Search.Structural
import DocGraph.Text.Blank

/-!
# DocGraph: comparators

A comparator decides whether a candidate counts as an occurrence of the value looked for. Two of
them have names; a caller may bring its own, which may also fail or break off. A failure is a
fault of one candidate, never of the search.
-/

namespace DocGraph.Search

/-- What a comparator says about one candidate. -/
inductive Verdict where
  | accepted
  | rejected
  /-- The comparator failed; the outermost cause comes first. -/
  | failed (causes : List String)
  /-- The comparator broke off, leaving a text or something that is none. -/
  | panicked (payload : Option String)
deriving DecidableEq

namespace Verdict

def ofBool (b : Bool) : Verdict :=
  if b then .accepted else .rejected

/-- The message of a verdict that is a fault. -/
def fault? : Verdict → Option String
  | .accepted => none
  | .rejected => none
  | .failed causes => some (": ".intercalate causes)
  | .panicked payload => some ("panicked: " ++ payload.getD "unknown panic payload")

/-- The comparator gave no answer. -/
def isFault : Verdict → Bool
  | .accepted => false
  | .rejected => false
  | .failed _ => true
  | .panicked _ => true

theorem isSome_fault? (v : Verdict) : v.fault?.isSome = v.isFault := by
  cases v <;> rfl

end Verdict

/-- How a candidate is held against the value looked for. -/
inductive Comparator where
  /-- Scalars by value, containers by identity. -/
  | strict
  /-- Contents, through all levels. -/
  | structural
  /-- A caller's own judgement of candidate and target. -/
  | custom (judge : Value → Value → Verdict)

namespace Comparator

def name : Comparator → String
  | .strict => "strict"
  | .structural => "structural"
  | .custom _ => "custom"

/-- The name as a term of the type. -/
def debug (c : Comparator) : String :=
  "Comparator::" ++ c.name

/-- The comparator of a name; case and surrounding blanks do not matter. -/
def ofName (name : String) : Except Error Comparator :=
  let plain := (Text.trim name).map Char.toLower
  if plain = "strict" then .ok .strict
  else if plain = "structural" then .ok .structural
  else .error (.unknownComparator name)

def judge (c : Comparator) (h : Heap) (candidate target : Value) : Verdict :=
  match c with
  | .strict => .ofBool (candidate == target)
  | .structural => .ofBool (structuralEq h candidate target)
  | .custom f => f candidate target

end Comparator

end DocGraph.Search
