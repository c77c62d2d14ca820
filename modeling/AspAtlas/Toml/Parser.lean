import AspAtlas.Toml.Scalar
/-!
Reading TOML documents: values with their parts, then line by line the headers and keys that build
up the tables.
-/
namespace AspAtlas.Toml

/-- Items up to a closing bracket, in front of `done` and reversed; `n` bounds their number. -/
def itemsTail (item : List Char → Option (Value × List Char)) :
    Nat → List Value → List Char → Option (Value × List Char)
  | 0, _, _ => none
  | n + 1, done, cs =>
    match skipGaps false cs with
    | ']' :: rest => some (.array done.reverse, rest)
    | cs =>
      match item cs with
      | none => none
      | some (v, rest) =>
        match skipGaps false rest with
        | ',' :: rest => itemsTail item n (v :: done) rest
        | ']' :: rest => some (.array (v :: done).reverse, rest)
        | _ => none

/-- A key with its value, added to some members. -/
def keyValue? (item : List Char → Option (Value × List Char)) (cs : List Char) :
    Option ((Members → Option Members) × List Char) := do
  let (path, key, rest) ← key? cs
  match rest with
  | '=' :: rest =>
    let (v, rest) ← item (skipSpace rest)
    some (Members.add key v path, rest)
  | _ => none

/-- Members up to a closing brace, added to those in `done`; `n` bounds their number. -/
def membersTail (item : List Char → Option (Value × List Char)) :
    Nat → Members → List Char → Option (Value × List Char)
  | 0, _, _ => none
  | n + 1, done, cs =>
    match keyValue? item cs with
    | none => none
    | some (add, rest) =>
      match add done with
      | none => none
      | some done =>
        match skipSpace rest with
        | ',' :: rest => membersTail item n done rest
        | '\x7d' :: rest => some (.table .closed done, rest)
        | _ => none

/-- A value; it may have parts that are nested `n` deep. -/
def value? : Nat → List Char → Option (Value × List Char)
  | 0, cs => scalar? cs
  | n + 1, cs =>
    match cs with
    | '[' :: rest => itemsTail (value? n) (rest.length + 1) [] rest
    | '\x7b' :: rest =>
      match skipSpace rest with
      | '\x7d' :: rest => some (.table .closed [], rest)
      | rest => membersTail (value? n) (rest.length + 1) [] rest
    | cs => scalar? cs

/-- What has been read of a document: its members, and the header that further keys belong to. -/
structure Progress where
  members : Members := []
  header : List String := []

/-- The document after a header, behind its opening bracket. -/
def header? (p : Progress) (cs : List Char) : Option (Progress × List Char) := do
  let (path, key, rest) ← key? cs
  match rest with
  | ']' :: rest =>
    let members ← Members.within (Members.openTable key) path p.members
    some (⟨members, path ++ [key]⟩, rest)
  | _ => none

/-- The document after a repeated header, behind its opening brackets. -/
def itemHeader? (p : Progress) (cs : List Char) : Option (Progress × List Char) := do
  let (path, key, rest) ← key? cs
  match rest with
  | ']' :: ']' :: rest =>
    let members ← Members.within (Members.openItem key) path p.members
    some (⟨members, path ++ [key]⟩, rest)
  | _ => none

/-- The document after a key with its value. -/
def assignment? (p : Progress) (cs : List Char) : Option (Progress × List Char) := do
  let (add, rest) ← keyValue? (value? depthLimit) cs
  let members ← Members.within add p.header p.members
  some ({ p with members }, rest)

/-- The document after a header or a key. -/
def step? (p : Progress) : List Char → Option (Progress × List Char)
  | '[' :: '[' :: rest => itemHeader? p rest
  | '[' :: rest => header? p rest
  | cs => assignment? p cs

/-- Reads on, line by line; `n` bounds the number of lines. -/
def lines? : Nat → Progress → List Char → Option Members
  | 0, _, _ => none
  | n + 1, p, cs =>
    if (skipSpace cs).isEmpty then some p.members
    else
      match lineEnd? cs with
      | some rest => lines? n p rest
      | none =>
        match step? p (skipSpace cs) with
        | none => none
        | some (p, rest) =>
          match lineEnd? rest with
          | some rest => lines? n p rest
          | none => none

/-- The members of a document. A byte order mark in front does not count. -/
def parse? (text : String) : Option Members :=
  let cs := match text.toList with
    | '\ufeff' :: rest => rest
    | cs => cs
  lines? (cs.length + 1) {} cs

end AspAtlas.Toml
