import DocGraph.Toml.Lexical

/-!
# DocGraph: reading TOML

A document is a row of lines: bindings, headers, or nothing. Values are nested no deeper than a
limit, which is also what bounds the recursion.
-/

namespace DocGraph.Toml

/-- What reads a value off the front of a text. -/
abbrev Reader := List Char → Option (Toml × List Char)

/-- The items of an array up to its bracket; a comma may follow the last one. -/
def items? (read : Reader) : (fuel : Nat) → List Char → Option (List Toml × List Char)
  | 0, _ => none
  | fuel + 1, s =>
    match skipLines (s.length + 1) s with
    -- an empty array, or the bracket behind the last comma
    | ']' :: rest => some ([], rest)
    | s =>
      (read s).bind fun (v, rest) =>
        match skipLines (rest.length + 1) rest with
        | ',' :: rest => (items? read fuel rest).map fun (vs, rest) => (v :: vs, rest)
        | ']' :: rest => some ([v], rest)
        | _ => none

/-- A key, its sign of equality and its value. -/
def binding? (read : Reader) (s : List Char) :
    Option ((List String × String × Toml) × List Char) :=
  (key? s).bind fun (path, name, rest) =>
    match rest with
    | '=' :: rest => (read (skipBlanks rest)).map fun (v, rest) => ((path, name, v), rest)
    | _ => none

/-- The bindings in braces behind the first one, up to the closing brace. -/
def bindings? (read : Reader) :
    (fuel : Nat) → Entries → List Char → Option (Entries × List Char)
  | 0, _, _ => none
  | fuel + 1, entries, s =>
    (binding? read s).bind fun ((path, name, v), rest) =>
      (bindPath? path name v .braces entries).bind fun entries =>
        match skipBlanks rest with
        | ',' :: rest => bindings? read fuel entries rest
        | '\x7d' :: rest => some (entries, rest)
        | _ => none

/-- A value; arrays and tables in it are nested no deeper than `depth`. -/
def value? : (depth : Nat) → Reader
  | depth, s =>
    match depth, s with
    | _, '"' :: _ => (string? s).map fun (cs, rest) => (.text (String.ofList cs), rest)
    | _, '\'' :: _ => (string? s).map fun (cs, rest) => (.text (String.ofList cs), rest)
    | 0, '[' :: _ => none
    | 0, '\x7b' :: _ => none
    | depth + 1, '[' :: rest =>
      (items? (value? depth) (rest.length + 1) rest).map fun (items, rest) => (.array items, rest)
    | depth + 1, '\x7b' :: rest =>
      match skipBlanks rest with
      | '\x7d' :: rest => some (.table .braces [], rest)
      | rest =>
        (bindings? (value? depth) (rest.length + 1) [] rest).map fun (entries, rest) =>
          (.table .braces entries, rest)
    | _, s => scalar? s

/-- The statement at the start of a line that is not blank, and the text behind it. -/
def statement? (s : List Char) : Option (Statement × List Char) :=
  match s with
  | '[' :: '[' :: rest =>
    (key? rest).bind fun (path, name, rest) =>
      match rest with
      | ']' :: ']' :: rest => some (.rowHeader path name, rest)
      | _ => none
  | '[' :: rest =>
    (key? rest).bind fun (path, name, rest) =>
      match rest with
      | ']' :: rest => some (.tableHeader path name, rest)
      | _ => none
  | s =>
    (binding? (value? (depthLimit - 1)) s).map fun ((path, name, v), rest) =>
      (.binding path name v, rest)

/-- The statements of a text. Each ends its line, so `fuel` bounds their number. -/
def statements? : (fuel : Nat) → List Char → Option (List Statement)
  | 0, _ => none
  | fuel + 1, s =>
    match skipBlanks (skipLines (s.length + 1) s) with
    | [] => some []
    | s =>
      (statement? s).bind fun (statement, rest) =>
        (restOfLine? rest).bind fun rest =>
          (statements? fuel rest).map (statement :: ·)

/-- The root table of a text, which may begin with a byte order mark. -/
def parse? (s : String) : Option Entries :=
  let cs := match s.toList with
    | '\ufeff' :: rest => rest
    | cs => cs
  (statements? (cs.length + 1) cs).bind ofStatements?

end DocGraph.Toml
