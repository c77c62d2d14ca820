import AspAtlas.Directive.Index
import AspAtlas.Json.Decode
/-!
Directives and their index as JSON. An index is the list of its groups.
-/
namespace AspAtlas

namespace Directive

/-- A directive, written. -/
def toJson (d : Directive) : Json :=
  .obj
    [("name", .str d.name), ("parameters", .ofList .str d.parameters),
      ("description", .str? d.description), ("line_number", .nat d.lineNumber),
      ("source_file", .ofPath d.sourceFile)]

/-- The keys of a written directive. -/
def jsonKeys : List String := ["name", "parameters", "description", "line_number", "source_file"]

/-- A directive, read. -/
def ofJson? (j : Json) : Option Directive := do
  let r ← Json.record? jsonKeys j
  some {
    name := ← r.field "name" Json.text?
    parameters := ← r.field "parameters" (Json.list? Json.text?)
    description := ← r.nullable "description" Json.text?
    lineNumber := ← r.field "line_number" Json.nat?
    sourceFile := ← r.field "source_file" Json.path? }

end Directive

namespace DirectiveGroup

/-- A group, written. -/
def toJson (g : DirectiveGroup) : Json :=
  .obj [("name", .str g.name), ("directives", .ofList Directive.toJson g.directives)]

/-- A group, read. -/
def ofJson? (j : Json) : Option DirectiveGroup := do
  let r ← Json.record? ["name", "directives"] j
  some {
    name := ← r.field "name" Json.text?
    directives := ← r.field "directives" (Json.list? Directive.ofJson?) }

end DirectiveGroup

namespace DirectiveIndex

/-- An index, written. -/
def toJson (index : DirectiveIndex) : Json := .ofList DirectiveGroup.toJson index.groups

/-- An index, read. -/
def ofJson? (j : Json) : Option DirectiveIndex :=
  (j.list? DirectiveGroup.ofJson?).map DirectiveIndex.mk

end DirectiveIndex
end AspAtlas
