import AspAtlas.Graph.Definition
import AspAtlas.Graph.Statement
import AspAtlas.Json.Decode
/-!
Graphs as JSON. Edges are pairs; sets are lists in order, and may be given in any order.
-/
namespace AspAtlas

/-- A set, written. -/
def OrderedSet.toJson {α : Type} [Ord α] (item : α → Json) (s : OrderedSet α) : Json :=
  .ofList item s.toList

/-- A set, read. -/
def OrderedSet.ofJson? {α : Type} [Ord α] [Std.TransOrd α] (item : Json → Option α) (j : Json) :
    Option (OrderedSet α) := (j.list? item).map .ofList

/-- An edge, written. -/
def Edge.toJson {α : Type} (item : α → Json) (e : Edge α) : Json :=
  .arr [item e.source, item e.target]

/-- An edge, read. -/
def Edge.ofJson? {α : Type} (item : Json → Option α) (j : Json) : Option (Edge α) :=
  (j.pair? item item).map fun p => ⟨p.1, p.2⟩

namespace StatementNode

/-- A node, written. -/
def toJson (n : StatementNode) : Json :=
  .obj
    [("id", .nat n.id), ("identity", .str n.identity), ("kind", .str n.kind.name),
      ("label", .str n.label), ("location", .ofLocation n.location)]

/-- A node, read. -/
def ofJson? (j : Json) : Option StatementNode := do
  let r ← Json.record? ["id", "identity", "kind", "label", "location"] j
  some {
    id := ← r.field "id" Json.nat?
    identity := ← r.field "identity" Json.text?
    kind := ← r.field "kind" (Json.choice? StatementKind.ofName?)
    label := ← r.field "label" Json.text?
    location := ← r.field "location" Json.location? }

end StatementNode

namespace StatementGraph

/-- A statement graph, written. -/
def toJson (g : StatementGraph) : Json :=
  .obj [("nodes", .ofList StatementNode.toJson g.nodes),
    ("edges", g.edges.toJson (Edge.toJson .nat))]

/-- A statement graph, read. -/
def ofJson? (j : Json) : Option StatementGraph := do
  let r ← Json.record? ["nodes", "edges"] j
  some {
    nodes := ← r.field "nodes" (Json.list? StatementNode.ofJson?)
    edges := ← r.field "edges" (OrderedSet.ofJson? (Edge.ofJson? Json.nat?)) }

end StatementGraph

namespace DefinitionGraph

/-- Groups of names, read; groups that are not given stay missing. -/
def groupsOfJson? : Json → Option (OrderedMap DefinitionGroup (OrderedSet String))
  | .obj entries => do
    let groups ← entries.mapM fun m => do
      some (← DefinitionGroup.ofName? m.1, ← OrderedSet.ofJson? Json.text? m.2)
    some (.ofList groups)
  | _ => none

/-- A definition graph, written. -/
def toJson (g : DefinitionGraph) : Json :=
  .obj
    [("groups", .obj (g.groups.entries.map fun e => (e.1.name, e.2.toJson .str))),
      ("outputs", g.outputs.toJson .str), ("edges", g.edges.toJson (Edge.toJson .str))]

/-- A definition graph, read. -/
def ofJson? (j : Json) : Option DefinitionGraph := do
  let r ← Json.record? ["groups", "outputs", "edges"] j
  some {
    groups := ← r.field "groups" groupsOfJson?
    outputs := ← r.field "outputs" (OrderedSet.ofJson? Json.text?)
    edges := ← r.field "edges" (OrderedSet.ofJson? (Edge.ofJson? Json.text?)) }

end DefinitionGraph
end AspAtlas
