import AspAtlas.Location
import AspAtlas.Json.Basic
import AspAtlas.Ordered.Map
import AspAtlas.Ordered.Set
/-!
Reading library values out of JSON. A record may be given as an object, whose unknown keys do not
count, or as a list of its fields in order. Numbers are natural and fit into 64 bits.
-/
namespace AspAtlas.Json

/-- A natural number of 64 bits. -/
def nat? : Json → Option Nat
  | int value => if 0 ≤ value ∧ value < 18446744073709551616 then some value.toNat else none
  | _ => none

/-- A text. -/
def text? : Json → Option String
  | str text => some text
  | _ => none

/-- A text of one character. -/
def char? : Json → Option Char
  | str text =>
    match text.toList with
    | [c] => some c
    | _ => none
  | _ => none

/-- A truth value. -/
def bool? : Json → Option Bool
  | bool value => some value
  | _ => none

/-- A list. -/
def list? {α : Type} (item : Json → Option α) : Json → Option (List α)
  | arr items => items.mapM item
  | _ => none

/-- Null, or a value. -/
def nullable? {α : Type} (item : Json → Option α) : Json → Option (Option α)
  | null => some none
  | other => (item other).map some

/-- A pair, as a list of two. -/
def pair? {α β : Type} (first : Json → Option α) (second : Json → Option β) :
    Json → Option (α × β)
  | arr [a, b] => do some (← first a, ← second b)
  | _ => none

/-- A name out of a fixed list: a text, or an object with null under that name. -/
def choice? {α : Type} (ofName? : String → Option α) : Json → Option α
  | str name => ofName? name
  | obj [(name, null)] => ofName? name
  | _ => none

/-- A path. -/
def path? (j : Json) : Option Path := j.text?.map Path.mk

/-- A map from texts. -/
def map? {ν : Type} (item : Json → Option ν) : Json → Option (OrderedMap String ν)
  | obj members => do
    let entries ← members.mapM fun m => (item m.2).map fun v => (m.1, v)
    some (OrderedMap.ofList entries)
  | _ => none

/-- The fields given for a record. -/
structure Record where
  fields : List (String × Json)
  isList : Bool

/-- The known fields of a record. A known key must not be repeated, and a list must not be longer
than the record unless `extra` allows it. -/
def record? (names : List String) (j : Json) (extra : Bool := false) : Option Record :=
  match j with
  | obj members =>
    let fields := members.filter fun m => names.contains m.1
    if (fields.map Prod.fst).Nodup then some ⟨fields, false⟩ else none
  | arr items =>
    if items.length ≤ names.length || extra then some ⟨names.zip items, true⟩ else none
  | _ => none

namespace Record

/-- The value given for a field. -/
def get? (r : Record) (name : String) : Option Json :=
  (r.fields.find? fun m => m.1 == name).map Prod.snd

/-- A field that has to be given. -/
def field {α : Type} (r : Record) (name : String) (item : Json → Option α) : Option α :=
  (r.get? name).bind item

/-- A field that may be null, and missing from an object. -/
def nullable {α : Type} (r : Record) (name : String) (item : Json → Option α) : Option (Option α) :=
  match r.get? name with
  | some j => nullable? item j
  | none => if r.isList then none else some none

/-- A field that may be missing. -/
def defaulted {α : Type} (r : Record) (name : String) (value : α) (item : Json → Option α) :
    Option α :=
  match r.get? name with
  | some j => item j
  | none => some value

end Record

/-- A position. -/
def position? (j : Json) : Option Position := do
  let r ← record? ["line", "column"] j
  some ⟨← r.field "line" nat?, ← r.field "column" nat?⟩

/-- A location. -/
def location? (j : Json) : Option Location := do
  let r ← record? ["file", "begin", "end"] j
  some ⟨← r.field "file" path?, ← r.field "begin" position?, ← r.field "end" position?⟩

/-- A position, written. -/
def ofPosition (p : Position) : Json := obj [("line", nat p.line), ("column", nat p.column)]

/-- A path, written. -/
def ofPath (p : Path) : Json := str p.text

/-- A location, written. -/
def ofLocation (l : Location) : Json :=
  obj [("file", ofPath l.file), ("begin", ofPosition l.begin), ("end", ofPosition l.stop)]

/-- A map from texts, written. -/
def ofMap {ν : Type} (item : ν → Json) (m : OrderedMap String ν) : Json :=
  obj (m.entries.map fun e => (e.1, item e.2))

/-- A list, written. -/
def ofList {α : Type} (item : α → Json) (items : List α) : Json := arr (items.map item)

/-- A member that is left out when there is no value. -/
def present {α : Type} (key : String) (item : α → Json) : Option α → List (String × Json)
  | some value => [(key, item value)]
  | none => []

end AspAtlas.Json
