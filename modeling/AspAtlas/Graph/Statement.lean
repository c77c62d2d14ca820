import AspAtlas.Graph.Dot
import AspAtlas.Graph.Edge
import AspAtlas.Statement.Basic
/-!
The statement graph: rules, facts and constraints, with an edge wherever one statement defines what
another one depends on.
-/
namespace AspAtlas

/-- A statement in a graph. -/
structure StatementNode where
  id : Nat
  identity : String
  kind : StatementKind
  label : String
  location : Location
deriving BEq

/-- Statements and what flows between them. -/
structure StatementGraph where
  nodes : List StatementNode
  edges : OrderedSet (Edge Nat)
deriving BEq

namespace StatementGraph

/-- The node of a statement. -/
def nodeOf (s : Statement) (id : Nat) : StatementNode :=
  { id, identity := s.identity, kind := s.kind, label := s.label, location := s.location }

/-- The edges between numbered statements. -/
def edgesOf (members : List (Statement × Nat)) : List (Edge Nat) :=
  members.flatMap fun (s, a) =>
    members.filterMap fun (t, b) => if a ≠ b ∧ s.feeds t then some ⟨a, b⟩ else none

/-- The graph of some statements; those that are not rule-shaped do not count. -/
def build (statements : List Statement) : StatementGraph :=
  let members := (statements.filter fun s => s.kind.isRuleShaped).zipIdx
  { nodes := members.map fun (s, id) => nodeOf s id
    edges := .ofList (edgesOf members) }

/-- The node at an index. -/
def node? (g : StatementGraph) (id : Nat) : Option StatementNode := g.nodes[id]?

/-- The nodes that an index has edges to. -/
def successors (g : StatementGraph) (id : Nat) : List StatementNode :=
  g.edges.toList.filterMap fun e => if e.source = id then g.node? e.target else none

/-- The nodes that have edges to an index. -/
def predecessors (g : StatementGraph) (id : Nat) : List StatementNode :=
  g.edges.toList.filterMap fun e => if e.target = id then g.node? e.source else none

/-- The edges between labels. -/
def labeledEdges (g : StatementGraph) : OrderedSet (Edge String) :=
  .ofList <| g.edges.toList.filterMap fun e => do
    some ⟨(← g.node? e.source).label, (← g.node? e.target).label⟩

/-- The shape that a kind of statement is drawn with. -/
def shape : StatementKind → String
  | .fact => "box"
  | .constraint => "octagon"
  | _ => "ellipse"

/-- The line of a node. -/
def nodeLine (n : StatementNode) : String :=
  s!"  n{n.id} [label={Dot.quoted n.label}, shape={shape n.kind}];"

/-- The line of an edge. -/
def edgeLine (e : Edge Nat) : String := s!"  n{e.source} -> n{e.target};"

/-- The graph as DOT text. -/
def toDot (g : StatementGraph) : String :=
  Dot.digraph "Statement Dependency Graph" (g.nodes.map nodeLine ++ g.edges.toList.map edgeLine)

end StatementGraph
end AspAtlas
