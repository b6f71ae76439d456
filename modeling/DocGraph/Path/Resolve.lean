import DocGraph.Heap
import DocGraph.Path.Scan

/-!
# DocGraph: following paths

A token names a field of an object or a position of an array. Following a list of tokens from a
root takes one such step per token; it fails at the first scalar or missing child, and a list
without tokens leads nowhere.
-/

namespace DocGraph.Path

/-- A place in a document: an expression to be scanned, or tokens. -/
inductive Locator where
  | expression (expr : String)
  | tokens (tokens : List String)

def Locator.toTokens : Locator → List String
  | .expression expr => parse expr
  | .tokens list => list

/-- One step from a value to the child that `token` names. -/
def step (h : Heap) (v : Value) (token : String) : Option Value :=
  match v with
  | .container (.object id) => (h.fields id).get? token
  | .container (.array id) => (Index.parse? token).bind fun position => (h.items id)[position]?
  | _ => none

/-- A step leads to the child that the container itself finds. -/
theorem step_eq (h : Heap) (v : Value) (token : String) :
    step h v token = v.container?.bind fun c => h.ownField c token := by
  cases v with
  | container c =>
    cases c with
    | object id => rfl
    | array id => rfl
  | _ => rfl

/-- The value that the tokens lead to from `root`. -/
def evaluate (h : Heap) (root : Value) (tokens : List String) : Option Value :=
  if tokens.isEmpty then none else tokens.foldlM (step h) root

/-- Like `evaluate`, with `fallback` where nothing is found or what is found is absent. -/
def resolve (h : Heap) (root : Value) (place : Locator) (fallback : Value) : Value :=
  match evaluate h root place.toTokens with
  | some v => if v.isAbsent then fallback else v
  | none => fallback

def get (h : Heap) (root : Value) (place : Locator) : Value :=
  resolve h root place .absent

end DocGraph.Path
