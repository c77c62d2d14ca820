import AspAtlas.Directive.Index
import AspAtlas.Node.Basic
import AspAtlas.Ordered.Map
/-!
The variables of one file, one entry per name with every place where it occurs. The first occurrence
gives location and documentation.
-/
namespace AspAtlas

/-- A variable, and every place where it occurs. -/
structure Variable where
  name : String
  location : Location
  documentation : Option String
  occurrences : List Location
deriving BEq, Repr

/-- The variables of a file, by name. -/
structure VariableRegistry where
  byName : OrderedMap String Variable := .empty

namespace VariableRegistry

/-- The registry with one more occurrence. -/
def add (r : VariableRegistry) (name : String) (location : Location)
    (documentation : Option String) : VariableRegistry where
  byName := r.byName.alter name fun
    | some v => { v with occurrences := v.occurrences ++ [location] }
    | none => { name, location, documentation, occurrences := [location] }

/-- The variable occurrences below a node, in pre-order. -/
def occurrencesIn (n : Node) : List (String × Location) :=
  (n.visit fun _ => true).filterMap fun m =>
    if m.kind = .var then m.name.map fun name => (name, m.location) else none

/-- The registry of the statements that belong to a file. -/
def extract (nodes : List Node) (file : Path) (directives : DirectiveIndex)
    (directiveName : String) : VariableRegistry :=
  ((nodes.filter fun n => n.location.isIn file).flatMap occurrencesIn).foldl
    (fun r o => r.add o.1 o.2 (directives.description? directiveName o.1)) {}

/-- The variable of a name. -/
def get? (r : VariableRegistry) (name : String) : Option Variable := r.byName.get? name

/-- The variables, by name. -/
def toList (r : VariableRegistry) : List Variable := r.byName.values

/-- The number of variables. -/
def size (r : VariableRegistry) : Nat := r.byName.size

end VariableRegistry
end AspAtlas
