import DocGraph.Yaml.Node
import DocGraph.Yaml.Schema
import DocGraph.Yaml.Token.Lexer

/-!
# DocGraph: reading YAML

A node tree becomes a decoded document by putting, for each alias, the node that it names, and by
reading scalars. Anchors are numbered in the order of the text, each by the count of names known
before it; an alias stands for the last node of the number that its name has at that place.

The depth of the result is bounded, and so is the number of aliases followed, so a document that
contains itself is refused. Two entries of a mapping must not have the same key.
-/

namespace DocGraph.Yaml

namespace Node

/-! ## Numbering anchors -/

/-- The names known so far and their numbers, the latest first. -/
abbrev Names := List (String × Nat)

/-- Gives a name the next number, which the names known before it determine. -/
def nextNumber (names : Names) : Nat :=
  (names.map Prod.fst).eraseDups.length

def numberProps (names : Names) (props : Props String) : Props Nat × Names :=
  match props.anchor with
  | some name => (⟨some (nextNumber names), props.tag⟩, (name, nextNumber names) :: names)
  | none => (⟨none, props.tag⟩, names)

mutual

/-- Numbers the anchors of a tree; `none` if an alias stands for a name not known yet. -/
def number? (names : Names) : Node String → Option (Node Nat × Names)
  | .scalar props plain s =>
    let (props, names) := numberProps names props
    some (.scalar props plain s, names)
  | .alias name => (names.lookup name).map fun n => (.alias n, names)
  | .sequence props items =>
    let (props, names) := numberProps names props
    (numberItems? names items).map fun (items, names) => (.sequence props items, names)
  | .mapping props entries =>
    let (props, names) := numberProps names props
    (numberEntries? names entries).map fun (entries, names) => (.mapping props entries, names)

def numberItems? (names : Names) : List (Node String) → Option (List (Node Nat) × Names)
  | [] => some ([], names)
  | n :: rest =>
    (number? names n).bind fun (n, names) =>
      (numberItems? names rest).map fun (rest, names) => (n :: rest, names)

def numberEntries? (names : Names) :
    List (Node String × Node String) → Option (List (Node Nat × Node Nat) × Names)
  | [] => some ([], names)
  | (k, v) :: rest =>
    (number? names k).bind fun (k, names) =>
      (number? names v).bind fun (v, names) =>
        (numberEntries? names rest).map fun (rest, names) => ((k, v) :: rest, names)

end

/-! ## Measures of a tree -/

mutual

/-- The nodes that have a number, in the order of the text. -/
def anchored : Node Nat → List (Nat × Node Nat)
  | .scalar props plain s => numbered props (.scalar props plain s)
  | .alias _ => []
  | .sequence props items => numbered props (.sequence props items) ++ anchoredItems items
  | .mapping props entries => numbered props (.mapping props entries) ++ anchoredEntries entries
where
  numbered (props : Props Nat) (n : Node Nat) : List (Nat × Node Nat) :=
    (props.anchor.map (·, n)).toList

def anchoredItems : List (Node Nat) → List (Nat × Node Nat)
  | [] => []
  | n :: rest => anchored n ++ anchoredItems rest

def anchoredEntries : List (Node Nat × Node Nat) → List (Nat × Node Nat)
  | [] => []
  | (k, v) :: rest => anchored k ++ anchored v ++ anchoredEntries rest

end

mutual

/-- One for each scalar and alias, two for each container. -/
def weight : Node Nat → Nat
  | .scalar _ _ _ => 1
  | .alias _ => 1
  | .sequence _ items => 2 + weightItems items
  | .mapping _ entries => 2 + weightEntries entries

def weightItems : List (Node Nat) → Nat
  | [] => 0
  | n :: rest => weight n + weightItems rest

def weightEntries : List (Node Nat × Node Nat) → Nat
  | [] => 0
  | (k, v) :: rest => weight k + weight v + weightEntries rest

end

/-! ## Expansion -/

/-- What a document's aliases stand for, and how many may be followed. -/
structure Targets where
  nodes : List (Nat × Node Nat)
  limit : Nat

/-- A computation that counts the aliases followed. -/
abbrev Expansion := StateT Nat Option

/-- The node that a node stands for. -/
def Targets.follow (t : Targets) : Node Nat → Expansion (Node Nat)
  | .alias n => do
    let followed ← get
    -- a document that multiplies by its aliases is refused
    if t.limit ≤ followed then failure
    else
      set (followed + 1)
      match t.nodes.lookup n with
      | some target => pure target
      | none => failure
  | n => pure n

/-- The tag of a document's own that a node carries. -/
def ownTag? (tag : Option String) : Option String :=
  tag.bind fun t => if t.toList.head? = some '!' then some (Yaml.bareTag t) else none

def withTag (tag : Option String) (y : Yaml) : Yaml :=
  match ownTag? tag with
  | some t => .tagged t y
  | none => y

def scalar? (tag : Option String) (plain : Bool) (s : String) : Option Yaml :=
  match ownTag? tag with
  | some t => (ofScalar? none plain s).map (.tagged t)
  | none => ofScalar? tag plain s

/-- The tree of a node, at most `depth` containers deep. -/
def expand (t : Targets) : (depth : Nat) → Node Nat → Expansion Yaml
  | depth, n => do
    let target ← t.follow n
    match depth, target with
    -- what an alias stands for is never an alias
    | _, .alias _ => failure
    | _, .scalar props plain s => StateT.lift (scalar? props.tag plain s)
    | 0, _ => failure
    | depth + 1, .sequence props items =>
      let items ← items.mapM fun n => expand t depth n
      pure (withTag props.tag (.sequence items))
    | depth + 1, .mapping props entries =>
      let entries ← entries.mapM fun (k, v) => do
        let key ← expand t depth k
        let value ← expand t depth v
        pure (key, value)
      if Yaml.distinct (entries.map Prod.fst) then pure (withTag props.tag (.mapping entries))
      else failure

/-- The decoded document of a tree. -/
def toYaml? (n : Node String) : Option Yaml :=
  (number? [] n).bind fun (n, _) =>
    let targets : Targets := ⟨(anchored n).reverse, 100 * weight n⟩
    ((expand targets depthLimit n).run 0).map Prod.fst

end Node

/-- The document that a text holds; a text without one is null. -/
def parse? (s : String) : Option Yaml :=
  (tokens? s).bind fun tokens =>
    (Node.ofTokens? tokens).bind fun
      | some n => n.toYaml?
      | none => some .null

end DocGraph.Yaml
