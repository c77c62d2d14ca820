import AspAtlas.Json.Decode
import AspAtlas.Node.Basic
/-!
Syntax trees as JSON. Absent names, arities and operators are left out; a child is an object with
one member, which tells single nodes from sequences.
-/
namespace AspAtlas

/-- A child, written. -/
def Child.toJson : Child Json → Json
  | .node item => .obj [("Node", item)]
  | .sequence items => .obj [("Sequence", .arr items)]

namespace Node

/-- A node with written children. -/
def jsonStep (n : Node) (below : Children Json) : Json :=
  .obj <|
    [("kind", .str n.kind.name), ("location", Json.ofLocation n.location)]
      ++ Json.present "name" Json.str n.name
      ++ Json.present "arity" Json.nat n.arity
      ++ Json.present "operator" Json.str n.operator
      ++ [("sign", .str n.sign.name), ("fields", .obj (below.map fun e => (e.1.name, e.2.toJson)))]

/-- A tree, written. -/
def toJson (n : Node) : Json := n.fold jsonStep

/-- A child, read. -/
def childOfJson? (node : Json → Option Node) : Json → Option (Child Node)
  | .obj [("Node", item)] => (node item).map .node
  | .obj [("Sequence", items)] => (items.list? node).map .sequence
  | _ => none

/-- Children by field, read; of repeated fields the last counts. -/
def fieldsOfJson? (node : Json → Option Node) : Json → Option (Children Node)
  | .obj members =>
    members.foldlM (fun fields m => do
      let field ← Field.ofName? m.1
      let child ← childOfJson? node m.2
      some (Children.put field child fields)) []
  | _ => none

/-- The keys of a written node. -/
def jsonKeys : List String := ["kind", "location", "name", "arity", "operator", "sign", "fields"]

/-- A tree of bounded depth, read. -/
def ofJsonWithin? : Nat → Json → Option Node
  | 0, _ => none
  | n + 1, j => do
    let r ← Json.record? jsonKeys j
    some {
      kind := ← r.field "kind" (Json.choice? NodeKind.ofName?)
      location := ← r.field "location" Json.location?
      name := ← r.defaulted "name" none (Json.nullable? Json.text?)
      arity := ← r.defaulted "arity" none (Json.nullable? Json.nat?)
      operator := ← r.defaulted "operator" none (Json.nullable? Json.text?)
      sign := ← r.defaulted "sign" .none (Json.choice? Sign.ofName?)
      fields := ← r.defaulted "fields" [] (fieldsOfJson? (ofJsonWithin? n)) }

/-- A tree, read. -/
def ofJson? (j : Json) : Option Node := ofJsonWithin? (j.depth + 1) j

end Node
end AspAtlas
