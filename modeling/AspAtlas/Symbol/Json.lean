import AspAtlas.Json.Decode
import AspAtlas.Symbol.Registry
import AspAtlas.Symbol.Variable
/-!
Predicates, variables and their registries as JSON.
-/
namespace AspAtlas

namespace Symbol

/-- A predicate entry, written. -/
def toJson (s : Symbol) : Json :=
  .obj
    [("name", .str s.name), ("arity", .nat s.arity), ("signature", .str s.signature),
      ("arguments", .ofMap .nat s.arguments), ("location", .ofLocation s.location),
      ("documentation", .str? s.documentation), ("occurrence_count", .nat s.occurrenceCount)]

/-- The keys of a written predicate entry. -/
def jsonKeys : List String :=
  ["name", "arity", "signature", "arguments", "location", "documentation", "occurrence_count"]

/-- A predicate entry, read. -/
def ofJson? (j : Json) : Option Symbol := do
  let r ← Json.record? jsonKeys j
  some {
    name := ← r.field "name" Json.text?
    arity := ← r.field "arity" Json.nat?
    signature := ← r.field "signature" Json.text?
    arguments := ← r.field "arguments" (Json.map? Json.nat?)
    location := ← r.field "location" Json.location?
    documentation := ← r.nullable "documentation" Json.text?
    occurrenceCount := ← r.field "occurrence_count" Json.nat? }

end Symbol

/-- A registry, written. -/
def SymbolRegistry.toJson (r : SymbolRegistry) : Json :=
  .obj
    [("occurrences", .ofList Symbol.toJson r.occurrences.toList),
      ("merged", .ofMap Symbol.toJson r.merged)]

namespace Variable

/-- A variable, written. -/
def toJson (v : Variable) : Json :=
  .obj
    [("name", .str v.name), ("location", .ofLocation v.location),
      ("documentation", .str? v.documentation),
      ("occurrences", .ofList .ofLocation v.occurrences)]

/-- A variable, read. -/
def ofJson? (j : Json) : Option Variable := do
  let r ← Json.record? ["name", "location", "documentation", "occurrences"] j
  some {
    name := ← r.field "name" Json.text?
    location := ← r.field "location" Json.location?
    documentation := ← r.nullable "documentation" Json.text?
    occurrences := ← r.field "occurrences" (Json.list? Json.location?) }

end Variable

/-- A registry, written. -/
def VariableRegistry.toJson (r : VariableRegistry) : Json :=
  .obj [("variables", .ofMap Variable.toJson r.byName)]

end AspAtlas
