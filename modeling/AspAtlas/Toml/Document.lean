import AspAtlas.Json.Basic
/-!
TOML documents: values, tables, and the rules by which keys and headers open and extend tables. A
table can be opened by one header only; dotted keys extend tables that dotted keys have opened.
-/
namespace AspAtlas.Toml

/-- How a table has come about. -/
inductive Origin where
  /-- A header names it. -/
  | header
  /-- A header names a table in it. -/
  | implied
  /-- A dotted key leads through it. -/
  | dotted
  /-- It is written as a value, and complete. -/
  | closed
deriving DecidableEq, Repr

/-- A value of a document. -/
inductive Value where
  | text (text : String)
  | integer (value : Int)
  | real (spelling : String)
  | truth (value : Bool)
  | moment (spelling : String)
  | array (items : List Value)
  | table (origin : Origin) (members : List (String × Value))
  /-- The tables of repeated headers. -/
  | tables (items : List (List (String × Value)))
deriving Repr, Inhabited

/-- Values by key. -/
abbrev Members := List (String × Value)

namespace Members

/-- Puts what `f` makes of the present value under a key, or fails as `f` does. -/
def alter (key : String) (f : Option Value → Option Value) : Members → Option Members
  | [] => (f none).map fun v => [(key, v)]
  | m :: rest =>
    if m.1 = key then (f (some m.2)).map fun v => (key, v) :: rest
    else (alter key f rest).map (m :: ·)

/-- Applies `f` to the last of some tables. -/
def alterLast (f : Members → Option Members) : List Members → Option (List Members)
  | [] => none
  | [last] => (f last).map ([·])
  | first :: rest => (alterLast f rest).map (first :: ·)

/-- Adds a value under a key behind a path of dotted keys. -/
def add (key : String) (v : Value) : List String → Members → Option Members
  | [] => alter key fun
    | none => some v
    | some _ => none
  | step :: rest => alter step fun
    | none => (add key v rest []).map (.table .dotted)
    | some (.table .dotted inner) => (add key v rest inner).map (.table .dotted)
    | some (.table .implied inner) =>
      if rest.isEmpty then none else (add key v rest inner).map (.table .implied)
    | some (.tables items) =>
      if rest.isEmpty then none else (alterLast (add key v rest) items).map .tables
    | some _ => none

/-- Applies `f` to the table at a path of headers; tables on the way are implied. -/
def within (f : Members → Option Members) : List String → Members → Option Members
  | [] => f
  | step :: rest => alter step fun
    | none => (within f rest []).map (.table .implied)
    | some (.table .closed _) => none
    | some (.table origin inner) => (within f rest inner).map (.table origin)
    | some (.tables items) => (alterLast (within f rest) items).map .tables
    | some _ => none

/-- Opens a table that no header has opened before. -/
def openTable (key : String) : Members → Option Members := alter key fun
  | none => some (.table .header [])
  | some (.table .implied inner) => some (.table .header inner)
  | some _ => none

/-- Opens one more of the tables of a repeated header. -/
def openItem (key : String) : Members → Option Members := alter key fun
  | none => some (.tables [[]])
  | some (.tables items) => some (.tables (items ++ [[]]))
  | some _ => none

end Members

mutual

/-- A value as JSON; a moment is an object that holds its spelling. -/
def Value.toJson : Value → Json
  | .text text => .str text
  | .integer value => .int value
  | .real spelling => .decimal spelling
  | .truth value => .bool value
  | .moment spelling => .obj [("$__toml_private_datetime", .str spelling)]
  | .array items => .arr (jsonItems items)
  | .table _ members => .obj (jsonMembers members)
  | .tables items => .arr (jsonTables items)

/-- Items as JSON. -/
def jsonItems : List Value → List Json
  | [] => []
  | item :: rest => item.toJson :: jsonItems rest

/-- Members as JSON. -/
def jsonMembers : List (String × Value) → List (String × Json)
  | [] => []
  | (key, item) :: rest => (key, item.toJson) :: jsonMembers rest

/-- Tables as JSON. -/
def jsonTables : List (List (String × Value)) → List Json
  | [] => []
  | item :: rest => .obj (jsonMembers item) :: jsonTables rest

end

end AspAtlas.Toml
