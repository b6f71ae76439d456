import DocGraph.Yaml.Token

/-!
# DocGraph: YAML nodes

The tokens of a document make a tree of nodes, in which a node may be named by an anchor and
stand for another one by its name, and tags are written out in full. A text holds at most one
document.

Blocks are nested as deep as the tokens nest; trees deeper than `depthLimit` are refused, which
is also what bounds the recursion.
-/

namespace DocGraph.Yaml

/-- What stands in front of a node; anchors are told apart by labels. -/
structure Props (label : Type) where
  anchor : Option label
  tag : Option String

inductive Node (label : Type) where
  | scalar (props : Props label) (plain : Bool) (text : String)
  | sequence (props : Props label) (items : List (Node label))
  | mapping (props : Props label) (entries : List (Node label × Node label))
  | alias (target : label)

/-- A node as it is written, with names for anchors. -/
abbrev NamedNode := Node String

/-- Containers may be nested this deep. -/
def depthLimit : Nat := 128

def Props.none : Props String := ⟨.none, .none⟩

/-- A node that is not written. -/
def Node.empty : NamedNode :=
  .scalar .none true ""

namespace Node

/-- What reads a node off the front of some tokens. -/
abbrev Reader := List Token → Option (NamedNode × List Token)

/-! ## Properties -/

/-- The tag handles in force and what they stand for. -/
abbrev Handles := List (String × String)

def defaultHandles : Handles :=
  [("!", "!"), ("!!", "tag:yaml.org,2002:")]

def tagOf? (handles : Handles) (handle suffix : String) : Option String :=
  if handle.isEmpty then some suffix
  else (handles.lookup handle).map (· ++ suffix)

/-- An anchor and a tag, in either order. -/
def props? (handles : Handles) : List Token → Option (Props String × List Token)
  | .anchor name :: .tag handle suffix :: rest
  | .tag handle suffix :: .anchor name :: rest =>
    (tagOf? handles handle suffix).map fun tag => (⟨some name, some tag⟩, rest)
  | .anchor name :: rest => some (⟨some name, .none⟩, rest)
  | .tag handle suffix :: rest =>
    (tagOf? handles handle suffix).map fun tag => (⟨.none, some tag⟩, rest)
  | rest => some (.none, rest)

/-! ## The loops over entries

`read` reads the nodes one level further down. Each round takes a token, so the number of tokens
bounds the rounds. -/

/-- The node behind a mark, which is empty where the next token is one of `enders`. -/
def orEmpty (read : Reader) (enders : List Token) (ts : List Token) :
    Option (NamedNode × List Token) :=
  match ts with
  | [] => read []
  | t :: _ => if enders.contains t then some (.empty, ts) else read ts

/-- The value of an entry, which is empty where its mark is missing. -/
def valueOrEmpty (read : Reader) (enders : List Token) (ts : List Token) :
    Option (NamedNode × List Token) :=
  match ts with
  | .value :: rest => orEmpty read enders rest
  | rest => some (.empty, rest)

def blockItems (read : Reader) : (fuel : Nat) → List Token → Option (List NamedNode × List Token)
  | 0, _ => none
  | fuel + 1, ts =>
    match ts with
    | .blockEntry :: rest =>
      (orEmpty read [.blockEntry, .blockEnd] rest).bind fun (item, rest) =>
        (blockItems read fuel rest).map fun (items, rest) => (item :: items, rest)
    | .blockEnd :: rest => some ([], rest)
    | _ => none

/-- The items of a sequence that is not indented further than the key in front of it. -/
def flushItems (read : Reader) : (fuel : Nat) → List Token → Option (List NamedNode × List Token)
  | 0, _ => none
  | fuel + 1, ts =>
    match ts with
    | .blockEntry :: rest =>
      (orEmpty read [.blockEntry, .key, .value, .blockEnd] rest).bind fun (item, rest) =>
        (flushItems read fuel rest).map fun (items, rest) => (item :: items, rest)
    | _ => some ([], ts)

def blockEntries (read : Reader) :
    (fuel : Nat) → List Token → Option (List (NamedNode × NamedNode) × List Token)
  | 0, _ => none
  | fuel + 1, ts =>
    match ts with
    | .key :: rest =>
      (orEmpty read [.key, .value, .blockEnd] rest).bind fun (key, rest) =>
        (valueOrEmpty read [.key, .value, .blockEnd] rest).bind fun (value, rest) =>
          (blockEntries read fuel rest).map fun (entries, rest) => ((key, value) :: entries, rest)
    | .blockEnd :: rest => some ([], rest)
    | _ => none

/-- The mapping of one entry that an item of a bracketed sequence may be. An entry without a key
swallows the token behind its mark. -/
def singleEntry (read : Reader) (ts : List Token) : Option (NamedNode × List Token) :=
  let key? : Option (NamedNode × List Token) := match ts with
    | .value :: rest | .flowEntry :: rest | .flowSequenceEnd :: rest => some (.empty, rest)
    | ts => read ts
  key?.bind fun (key, rest) =>
    (valueOrEmpty read [.flowEntry, .flowSequenceEnd] rest).map fun (value, rest) =>
      (.mapping .none [(key, value)], rest)

/-- The tokens of the next item or entry: all of them if it is the first, else those behind the
comma. -/
def afterComma? (first : Bool) (ts : List Token) : Option (List Token) :=
  match first, ts with
  | true, ts => some ts
  | false, .flowEntry :: rest => some rest
  | false, _ => none

/-- The items up to the closing bracket. `single` reads an item that begins with the mark of a
key. -/
def flowItems (read single : Reader) :
    (fuel : Nat) → (first : Bool) → List Token → Option (List NamedNode × List Token)
  | 0, _, _ => none
  | fuel + 1, first, ts =>
    match first, ts with
    | _, .flowSequenceEnd :: rest => some ([], rest)
    | false, .flowEntry :: .flowSequenceEnd :: rest => some ([], rest)
    | _, _ =>
      (afterComma? first ts).bind fun ts =>
        let item? : Option (NamedNode × List Token) := match ts with
          | .key :: rest => single rest
          | ts => read ts
        item?.bind fun (item, rest) =>
          (flowItems read single fuel false rest).map fun (items, rest) => (item :: items, rest)

/-- The entries up to the closing brace; one without the mark of a key has no value. -/
def flowEntries (read : Reader) :
    (fuel : Nat) → (first : Bool) → List Token → Option (List (NamedNode × NamedNode) × List Token)
  | 0, _, _ => none
  | fuel + 1, first, ts =>
    match first, ts with
    | _, .flowMappingEnd :: rest => some ([], rest)
    | false, .flowEntry :: .flowMappingEnd :: rest => some ([], rest)
    | _, _ =>
      (afterComma? first ts).bind fun ts =>
        let entry? : Option ((NamedNode × NamedNode) × List Token) := match ts with
          | .key :: rest =>
            (orEmpty read [.value, .flowEntry, .flowMappingEnd] rest).bind fun (key, rest) =>
              (valueOrEmpty read [.flowEntry, .flowMappingEnd] rest).map fun (value, rest) =>
                ((key, value), rest)
          | ts => (read ts).map fun (key, rest) => ((key, .empty), rest)
        entry?.bind fun (entry, rest) =>
          (flowEntries read fuel false rest).map fun (entries, rest) => (entry :: entries, rest)

/-! ## Nodes -/

/-- Where a node stands, which decides what it may be. -/
inductive Place where
  | block
  /-- The key or value of a block mapping, which may be a sequence that is not indented. -/
  | blockEntry
  | flow
deriving DecidableEq

/-- A scalar; the tag that is a lone exclamation mark says nothing about it. -/
def ofScalar (props : Props String) (plain : Bool) (content : String) : NamedNode :=
  .scalar (if props.tag = some "!" then { props with tag := .none } else props) plain content

/-- The node that begins with the first token; containers may nest `depth` levels deep. -/
def read (handles : Handles) : (depth : Nat) → Place → Reader
  | depth, place, ts =>
    match ts with
    | .alias name :: rest => some (.alias name, rest)
    | ts =>
      (props? handles ts).bind fun (props, ts) =>
        match ts with
        | .scalar plain content :: rest => some (ofScalar props plain content, rest)
        | ts =>
          -- properties alone make an empty node
          let missing : Option (NamedNode × List Token) :=
            if props.anchor.isSome || props.tag.isSome then some (.scalar props true "", ts)
            else none
          match depth with
          -- no level is left for a container
          | 0 =>
            match place, ts with
            | .blockEntry, .blockEntry :: _ => none
            | _, .flowSequenceStart :: _ => none
            | _, .flowMappingStart :: _ => none
            | .flow, _ => missing
            | _, .blockSequenceStart :: _ => none
            | _, .blockMappingStart :: _ => none
            | _, _ => missing
          | depth + 1 =>
            let seq (r : Option (List NamedNode × List Token)) : Option (NamedNode × List Token) :=
              r.map fun (items, rest) => (.sequence props items, rest)
            let map (r : Option (List (NamedNode × NamedNode) × List Token)) :
                Option (NamedNode × List Token) :=
              r.map fun (entries, rest) => (.mapping props entries, rest)
            match place, ts with
            | .blockEntry, .blockEntry :: _ =>
              seq (flushItems (read handles depth .block) (ts.length + 1) ts)
            | _, .flowSequenceStart :: rest =>
              -- an entry among the items is a mapping, one level more
              let single : Reader := match depth with
                | 0 => fun _ => none
                | deeper + 1 => singleEntry (read handles deeper .flow)
              seq (flowItems (read handles depth .flow) single ts.length true rest)
            | _, .flowMappingStart :: rest =>
              map (flowEntries (read handles depth .flow) ts.length true rest)
            | .flow, _ => missing
            | _, .blockSequenceStart :: rest =>
              seq (blockItems (read handles depth .block) ts.length rest)
            | _, .blockMappingStart :: rest =>
              map (blockEntries (read handles depth .blockEntry) ts.length rest)
            | _, _ => missing

/-! ## Documents -/

/-- The directives in front of a document: the handles they define, and whether the version has
been given. -/
def directives? (handles : Handles) (versioned : Bool) :
    List Token → Option (Handles × List Token)
  | .versionDirective major minor :: rest =>
    if versioned || major ≠ 1 || (minor ≠ 1 && minor ≠ 2) then none
    else directives? handles true rest
  | .tagDirective handle uri :: rest =>
    if (handles.lookup handle).isSome then none
    else directives? ((handle, uri) :: handles) versioned rest
  | rest => some (handles, rest)

/-- The root of a document that begins here. -/
def root? (ts : List Token) : Option (NamedNode × List Token) :=
  match ts with
  | .versionDirective _ _ :: _ | .tagDirective _ _ :: _ | .documentStart :: _ =>
    (directives? [] false ts).bind fun (handles, ts) =>
      match ts with
      | .documentStart :: rest =>
        match rest with
        | [] => some (.empty, rest)
        -- the document is over before it holds anything
        | .versionDirective _ _ :: _ | .tagDirective _ _ :: _ | .documentStart :: _
        | .documentEnd :: _ => some (.empty, rest)
        | rest => read (handles ++ defaultHandles) depthLimit .block rest
      | _ => none
  | ts => read defaultHandles depthLimit .block ts

/-- The one document of a text, `none` inside if there is no document at all. -/
def ofTokens? (ts : List Token) : Option (Option NamedNode) :=
  match ts with
  | [] => some none
  | ts =>
    (root? ts).bind fun (node, rest) =>
      if rest.all (· == .documentEnd) then some (some node) else none

end Node

end DocGraph.Yaml
