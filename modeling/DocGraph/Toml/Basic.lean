/-!
# DocGraph: TOML trees

A TOML document is a tree of tables, built statement by statement. What a statement may add to a
table depends on how the table came about: a table with a header of its own is closed to dotted
keys, one made by a dotted key is closed to headers, and one written in braces is closed to both.
No name is bound twice.
-/

namespace DocGraph

/-- How a table came about. -/
inductive Toml.Origin where
  /-- Its own header names it; the root and the rows of an array of tables count as such. -/
  | header
  /-- The header of a table inside it mentions it. -/
  | mentioned
  /-- A dotted key goes through it. -/
  | dotted
  /-- It is written in braces. -/
  | braces
deriving DecidableEq

inductive Toml where
  | text (s : String)
  | bool (b : Bool)
  | integer (n : Int)
  | float (x : Float)
  /-- A date, a time or both, as written. -/
  | moment (s : String)
  | array (items : List Toml)
  | table (origin : Toml.Origin) (entries : List (String × Toml))
  /-- An array of tables, the last one first. -/
  | rows (tables : List (List (String × Toml)))

namespace Toml

/-- The entries of a table. -/
abbrev Entries := List (String × Toml)

def text? : Toml → Option String
  | .text s => some s
  | _ => none

def bool? : Toml → Option Bool
  | .bool b => some b
  | _ => none

/-- Binds a name, in place if it is bound already. -/
def bind (name : String) (value : Toml) : Entries → Entries
  | [] => [(name, value)]
  | (n, v) :: rest => if n = name then (n, value) :: rest else (n, v) :: bind name value rest

/-- Changes the table at the end of a path and makes the tables on the way. No path goes through a
table in braces, and a dotted one through no table with a header. An array of tables stands for
its last row. -/
def update? (dotted : Bool) (change : Origin → Entries → Option Entries) :
    (path : List String) → Origin → Entries → Option Entries
  | [], origin, entries => change origin entries
  | name :: path, _, entries =>
    match entries.lookup name with
    -- a table is made on the way
    | none =>
      let origin := if dotted then Origin.dotted else .mentioned
      (update? dotted change path origin []).map fun made =>
        bind name (.table origin made) entries
    | some (.table origin inside) =>
      if origin = .braces || (dotted && origin = .header) then none
      else
        (update? dotted change path origin inside).map fun changed =>
          bind name (.table origin changed) entries
    -- the last row of an array of tables
    | some (.rows (row :: earlier)) =>
      (update? dotted change path .header row).map fun changed =>
        bind name (.rows (changed :: earlier)) entries
    -- a value that is no table
    | some _ => none

/-- Binds a name that is not bound yet. -/
def bindNew? (name : String) (value : Toml) (entries : Entries) : Option Entries :=
  if (entries.lookup name).isSome then none else some (entries ++ [(name, value)])

/-- Binds a dotted key in a table. The last table on the way must be made by dotted keys too. -/
def bindPath? (path : List String) (name : String) (value : Toml) (origin : Origin)
    (entries : Entries) : Option Entries :=
  update? true
    (fun inner inside =>
      if !path.isEmpty && inner ≠ .dotted then none else bindNew? name value inside)
    path origin entries

/-- Opens the table of a header. -/
def openTable? (name : String) (entries : Entries) : Option Entries :=
  match entries.lookup name with
  | none => some (bind name (.table .header []) entries)
  | some (.table .mentioned inside) => some (bind name (.table .header inside) entries)
  | some _ => none

/-- Opens a new row of an array of tables. -/
def openRow? (name : String) (entries : Entries) : Option Entries :=
  match entries.lookup name with
  | none => some (bind name (.rows [[]]) entries)
  | some (.rows tables) => some (bind name (.rows ([] :: tables)) entries)
  | some _ => none

/-- A statement of a document. -/
inductive Statement where
  | binding (path : List String) (name : String) (value : Toml)
  | tableHeader (path : List String) (name : String)
  | rowHeader (path : List String) (name : String)

/-- A document in the making: its root, and the path of the table that bindings go to. -/
structure Document where
  root : Entries
  current : List String

def Document.add? (d : Document) : Statement → Option Document
  | .binding path name value =>
    (update? false (bindPath? path name value) d.current .header d.root).map fun root =>
      { d with root }
  | .tableHeader path name =>
    (update? false (fun _ => openTable? name) path .header d.root).map fun root =>
      ⟨root, path ++ [name]⟩
  | .rowHeader path name =>
    (update? false (fun _ => openRow? name) path .header d.root).map fun root =>
      ⟨root, path ++ [name]⟩

/-- The root table of a document. -/
def ofStatements? (statements : List Statement) : Option Entries :=
  (statements.foldlM Document.add? ⟨[], []⟩).map Document.root

end Toml

end DocGraph
