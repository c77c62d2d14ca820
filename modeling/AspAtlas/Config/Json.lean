import AspAtlas.Config.Basic
import AspAtlas.Json.Decode
/-!
Settings as JSON. Every setting but those of the project may be missing and takes its default then;
`extra` says whether a table given as a list may have more items than settings.
-/
namespace AspAtlas

namespace ProjectConfig

/-- Project settings, written. -/
def toJson (c : ProjectConfig) : Json :=
  .obj
    [("name", .str c.name), ("source_dirs", .ofList .ofPath c.sourceDirs),
      ("ignore_patterns", .ofList .str c.ignorePatterns), ("docs_dir", .ofPath c.docsDir)]

/-- Project settings, read. -/
def ofJson? (extra : Bool) (j : Json) : Option ProjectConfig := do
  let r ← Json.record? ["name", "source_dirs", "ignore_patterns", "docs_dir"] j extra
  some {
    name := ← r.field "name" Json.text?
    sourceDirs := ← r.field "source_dirs" (Json.list? Json.path?)
    ignorePatterns := ← r.field "ignore_patterns" (Json.list? Json.text?)
    docsDir := ← r.field "docs_dir" Json.path? }

end ProjectConfig

namespace AnalysisConfig

/-- Analysis settings, written. -/
def toJson (c : AnalysisConfig) : Json :=
  .obj
    [("extensions", .ofList .str c.extensions),
      ("directive_marker", .str (String.singleton c.directiveMarker)),
      ("description_marker", .str c.descriptionMarker), ("comment_marker", .str c.commentMarker),
      ("predicate_directive", .str c.predicateDirective),
      ("variable_directive", .str c.variableDirective),
      ("section_directive", .str c.sectionDirective), ("max_file_size", .nat c.maxFileSize)]

/-- The keys of analysis settings. -/
def jsonKeys : List String :=
  ["extensions", "directive_marker", "description_marker", "comment_marker", "predicate_directive",
    "variable_directive", "section_directive", "max_file_size"]

/-- Analysis settings, read. -/
def ofJson? (extra : Bool) (j : Json) : Option AnalysisConfig := do
  let r ← Json.record? jsonKeys j extra
  let d : AnalysisConfig := {}
  some {
    extensions := ← r.defaulted "extensions" d.extensions (Json.list? Json.text?)
    directiveMarker := ← r.defaulted "directive_marker" d.directiveMarker Json.char?
    descriptionMarker := ← r.defaulted "description_marker" d.descriptionMarker Json.text?
    commentMarker := ← r.defaulted "comment_marker" d.commentMarker Json.text?
    predicateDirective := ← r.defaulted "predicate_directive" d.predicateDirective Json.text?
    variableDirective := ← r.defaulted "variable_directive" d.variableDirective Json.text?
    sectionDirective := ← r.defaulted "section_directive" d.sectionDirective Json.text?
    maxFileSize := ← r.defaulted "max_file_size" d.maxFileSize Json.nat? }

end AnalysisConfig

namespace GraphConfig

/-- Graph settings, written. -/
def toJson (c : GraphConfig) : Json :=
  .obj
    [("enabled", .bool c.enabled), ("statement_graph", .bool c.statementGraph),
      ("definition_graph", .bool c.definitionGraph)]

/-- Graph settings, read. -/
def ofJson? (extra : Bool) (j : Json) : Option GraphConfig := do
  let r ← Json.record? ["enabled", "statement_graph", "definition_graph"] j extra
  let d : GraphConfig := {}
  some {
    enabled := ← r.defaulted "enabled" d.enabled Json.bool?
    statementGraph := ← r.defaulted "statement_graph" d.statementGraph Json.bool?
    definitionGraph := ← r.defaulted "definition_graph" d.definitionGraph Json.bool? }

end GraphConfig

namespace OutputConfig

/-- Output settings, written. -/
def toJson (c : OutputConfig) : Json :=
  .obj [("pretty_json", .bool c.prettyJson), ("include_source_lines", .bool c.includeSourceLines)]

/-- Output settings, read. -/
def ofJson? (extra : Bool) (j : Json) : Option OutputConfig := do
  let r ← Json.record? ["pretty_json", "include_source_lines"] j extra
  let d : OutputConfig := {}
  some {
    prettyJson := ← r.defaulted "pretty_json" d.prettyJson Json.bool?
    includeSourceLines := ← r.defaulted "include_source_lines" d.includeSourceLines Json.bool? }

end OutputConfig

namespace Config

/-- All settings, written. -/
def toJson (c : Config) : Json :=
  .obj
    [("project", c.project.toJson), ("analysis", c.analysis.toJson), ("graphs", c.graphs.toJson),
      ("output", c.output.toJson)]

/-- All settings, read. -/
def ofJson? (extra : Bool) (j : Json) : Option Config := do
  let r ← Json.record? ["project", "analysis", "graphs", "output"] j extra
  some {
    project := ← r.field "project" (ProjectConfig.ofJson? extra)
    analysis := ← r.defaulted "analysis" {} (AnalysisConfig.ofJson? extra)
    graphs := ← r.defaulted "graphs" {} (GraphConfig.ofJson? extra)
    output := ← r.defaulted "output" {} (OutputConfig.ofJson? extra) }

end Config
end AspAtlas
