import DocGraph.Number

/-!
# DocGraph: values

A value is a scalar or a handle to a container. Containers live in a heap (`DocGraph.Heap`), so
the same one may be reached from several places, itself included. A handle carries the kind of
its container, and its number is the container's identity among those of its kind.
-/

namespace DocGraph

/-- A handle to an object or an array; equal handles are the same container. -/
inductive Container where
  | object (id : Nat)
  | array (id : Nat)
deriving DecidableEq

/-- A node of a document graph. `absent` says that no value is here, `null` is a value. -/
inductive Value where
  | absent
  | null
  | bool (b : Bool)
  | number (n : Number)
  | text (s : String)
  | container (c : Container)

/-- The key of a child in its owner: a field of an object, a position in an array. -/
inductive Key where
  | field (name : String)
  | index (position : Nat)
deriving DecidableEq

def Key.text : Key → String
  | .field name => name
  | .index position => toString position

def Container.isArray : Container → Bool
  | .object _ => false
  | .array _ => true

namespace Value

/-- Strict equality: scalars by value, containers by identity. -/
def strictEq : Value → Value → Bool
  | .absent, .absent => true
  | .null, .null => true
  | .bool a, .bool b => a == b
  | .number a, .number b => a == b
  | .text a, .text b => a == b
  | .container a, .container b => a == b
  | _, _ => false

instance : BEq Value := ⟨strictEq⟩

def isAbsent : Value → Bool
  | .absent => true
  | _ => false

def container? : Value → Option Container
  | .container c => some c
  | _ => none

@[simp]
theorem container?_eq_some_iff {v : Value} {c : Container} :
    v.container? = some c ↔ v = .container c := by
  cases v <;> simp [container?]

def text? : Value → Option String
  | .text s => some s
  | _ => none

def number? : Value → Option Number
  | .number n => some n
  | _ => none

/-- Both values are handles to one container. -/
def sameContainer (a b : Value) : Bool :=
  match a.container?, b.container? with
  | some c, some d => c == d
  | _, _ => false

end Value

end DocGraph
