import AspAtlas.Directive.Json
import AspAtlas.Statement.Basic
import AspAtlas.Symbol.Json
/-!
Statements as JSON. An empty qualifier, a source text that was not asked for and a missing number
are left out.
-/
namespace AspAtlas.Statement

/-- A statement, written. -/
def toJson (s : Statement) : Json :=
  .obj <|
    [("kind", .str s.kind.name), ("identity", .str s.identity),
      ("defines", .ofList Symbol.toJson s.defines),
      ("depends_on", .ofList Symbol.toJson s.dependsOn),
      ("comments", .ofList .str s.comments),
      ("section", (s.heading.map Directive.toJson).getD .null),
      ("location", .ofLocation s.location), ("source_file", .ofPath s.sourceFile)]
      ++ Json.present "prefix" Json.str (if s.qualifier.isEmpty then none else some s.qualifier)
      ++ Json.present "source" Json.str s.source
      ++ Json.present "constraint_index" Json.nat s.number

/-- The keys of a written statement. -/
def jsonKeys : List String :=
  ["kind", "identity", "defines", "depends_on", "comments", "section", "location", "source_file",
    "prefix", "source", "constraint_index"]

/-- A statement, read. -/
def ofJson? (j : Json) : Option Statement := do
  let r ← Json.record? jsonKeys j
  some {
    kind := ← r.field "kind" (Json.choice? StatementKind.ofName?)
    identity := ← r.field "identity" Json.text?
    defines := ← r.field "defines" (Json.list? Symbol.ofJson?)
    dependsOn := ← r.field "depends_on" (Json.list? Symbol.ofJson?)
    comments := ← r.field "comments" (Json.list? Json.text?)
    heading := ← r.nullable "section" Directive.ofJson?
    location := ← r.field "location" Json.location?
    sourceFile := ← r.field "source_file" Json.path?
    qualifier := ← r.defaulted "prefix" "" Json.text?
    source := ← r.defaulted "source" none (Json.nullable? Json.text?)
    number := ← r.defaulted "constraint_index" none (Json.nullable? Json.nat?) }

end AspAtlas.Statement
