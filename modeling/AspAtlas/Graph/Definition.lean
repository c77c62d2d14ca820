import AspAtlas.Graph.Dot
import AspAtlas.Graph.Edge
import AspAtlas.Ordered.Map
import AspAtlas.Statement.Basic
/-!
The definition graph: predicates and constraints, grouped by how they are defined, with an edge from
every dependency to what is defined from it. Every part of the graph is a union over statements.
-/
namespace AspAtlas

/-- How a name of the definition graph comes about. -/
inductive DefinitionGroup where
  | facts
  | inputs
  | rules
  | constraints
deriving DecidableEq, Repr, Inhabited

namespace DefinitionGroup

/-- Every group, in the order in which groups are listed. -/
def all : List DefinitionGroup := [facts, inputs, rules, constraints]

/-- The name of a group. -/
def name : DefinitionGroup → String
  | facts => "Facts"
  | inputs => "Inputs"
  | rules => "Rules"
  | constraints => "Constraints"

/-- The name of a group inside a cluster's name. -/
def cluster : DefinitionGroup → String
  | facts => "facts"
  | inputs => "inputs"
  | rules => "rules"
  | constraints => "constraints"

/-- The group of a given name. -/
def ofName? (text : String) : Option DefinitionGroup := all.find? fun g => g.name == text

instance : Ord DefinitionGroup := ⟨compareOn DefinitionGroup.ctorIdx⟩

instance : Std.TransOrd DefinitionGroup :=
  inferInstanceAs (Std.TransCmp (compareOn DefinitionGroup.ctorIdx))

end DefinitionGroup

/-- Names by how they are defined, and what is defined from what. -/
structure DefinitionGraph where
  groups : OrderedMap DefinitionGroup (OrderedSet String)
  outputs : OrderedSet String
  edges : OrderedSet (Edge String)
deriving BEq

namespace DefinitionGraph

variable (ownFile : Path)

/-- The name of a constraint: its identity, qualified when it stands in another file. -/
def constraintName (s : Statement) : String := if s.isIn ownFile then s.identity else s.displayName

/-- The names that a statement adds to a group. -/
def members (group : DefinitionGroup) (s : Statement) : List String :=
  match s.kind, group with
  | .fact, .facts => s.definedSignatures.toList
  | .input, .inputs => [s.identity]
  | .rule, .rules => s.definedSignatures.toList
  | .constraint, .constraints => [constraintName ownFile s]
  | _, _ => []

/-- The outputs that a statement adds. -/
def outputsOf (s : Statement) : List String :=
  match s.kind with
  | .output => [s.identity]
  | _ => []

/-- The names that the dependencies of a statement have edges to. -/
def targets (s : Statement) : List String :=
  match s.kind with
  | .rule => s.definedSignatures.toList
  | .constraint => [constraintName ownFile s]
  | .output => [s.identity]
  | _ => []

/-- The edges that a statement adds. -/
def edgesOf (s : Statement) : List (Edge String) :=
  s.dependencySignatures.toList.flatMap fun source =>
    (targets ownFile s).map fun target => ⟨source, target⟩

/-- The graph of some statements. -/
def build (statements : List Statement) : DefinitionGraph where
  groups := .ofList <| DefinitionGroup.all.map fun group =>
    (group, .ofList (statements.flatMap (members ownFile group)))
  outputs := .ofList (statements.flatMap outputsOf)
  edges := .ofList (statements.flatMap (edgesOf ownFile))

/-- The line of an output. -/
def outputLine (name : String) : String := s!"  {Dot.quoted name} [shape=Mdiamond];"

/-- The lines of a group. -/
def groupLines (group : DefinitionGroup) (names : OrderedSet String) : List String :=
  [s!"  subgraph cluster_{group.cluster} \x7b", s!"    label={Dot.quoted group.name};",
    "    style=filled;", "    color=lightgrey;", "    node [style=filled, color=white];"]
    ++ names.toList.map (fun name => s!"    {Dot.quoted name};")
    ++ ["  \x7d"]

/-- The line of an edge. -/
def edgeLine (e : Edge String) : String := s!"  {Dot.quoted e.source} -> {Dot.quoted e.target};"

/-- The graph as DOT text. -/
def toDot (g : DefinitionGraph) : String :=
  Dot.digraph "Definition Dependency Graph" <|
    g.outputs.toList.map outputLine
      ++ g.groups.entries.flatMap (fun e => groupLines e.1 e.2)
      ++ g.edges.toList.map edgeLine

end DefinitionGraph
end AspAtlas
