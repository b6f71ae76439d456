import DocGraph.Fields
import DocGraph.Json.Basic
import DocGraph.Json.Token

/-!
# DocGraph: reading JSON

Tokens are read one by one by a machine whose state is the chain of containers still open. Of
members with one name the last value stays, in the first one's place.
-/

namespace DocGraph.Json

/-- A container still open; what has been read of it comes last first. -/
inductive Frame where
  | array (items : List Json)
  | object (members : List (String × Json)) (name : String)

/-- What may come next, and inside which open containers. -/
inductive State where
  | value (outer : List Frame)
  | firstItem (outer : List Frame)
  | firstName (outer : List Frame)
  | nextName (outer : List Frame) (members : List (String × Json))
  | colon (outer : List Frame) (members : List (String × Json)) (name : String)
  | complete (outer : List Frame) (v : Json)

/-- At most this many containers may be open at once. -/
def depthLimit : Nat := 127

def closeArray (items : List Json) : Json :=
  .array items.reverse

def closeObject (members : List (String × Json)) : Json :=
  .object (Fields.ofList members.reverse).toList

/-- The first token of a value. -/
def State.start (outer : List Frame) : Token → Option State
  | .null => some (.complete outer .null)
  | .bool b => some (.complete outer (.bool b))
  | .number n => some (.complete outer (.number n))
  | .text s => some (.complete outer (.text s))
  | .openArray => if outer.length < depthLimit then some (.firstItem outer) else none
  | .openObject => if outer.length < depthLimit then some (.firstName outer) else none
  | .closeArray => none
  | .closeObject => none
  | .colon => none
  | .comma => none

def State.step : State → Token → Option State
  | .value outer, t => start outer t
  -- an empty array, or its first item
  | .firstItem outer, .closeArray => some (.complete outer (.array []))
  | .firstItem outer, t => start (.array [] :: outer) t
  -- an empty object, or the name of its first member
  | .firstName outer, .closeObject => some (.complete outer (.object []))
  | .firstName outer, .text name => some (.colon outer [] name)
  | .nextName outer members, .text name => some (.colon outer members name)
  | .colon outer members name, .colon => some (.value (.object members name :: outer))
  -- behind a value its container goes on or closes
  | .complete (.array items :: outer) v, .comma => some (.value (.array (v :: items) :: outer))
  | .complete (.array items :: outer) v, .closeArray =>
    some (.complete outer (Json.closeArray (v :: items)))
  | .complete (.object members name :: outer) v, .comma =>
    some (.nextName outer ((name, v) :: members))
  | .complete (.object members name :: outer) v, .closeObject =>
    some (.complete outer (Json.closeObject ((name, v) :: members)))
  | _, _ => none

/-- The document that the tokens make; nothing may follow it. -/
def ofTokens? (tokens : List Token) : Option Json :=
  (tokens.foldlM State.step (.value [])).bind fun
    | .complete [] v => some v
    | _ => none

def parse? (s : String) : Option Json :=
  (tokens? s).bind ofTokens?

end DocGraph.Json
