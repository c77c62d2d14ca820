import AspAtlas.Config.Json
import AspAtlas.Toml.Parser
import AspAtlas.Toml.Printer
/-!
Settings as TOML documents.
-/
namespace AspAtlas.Config

/-- The settings in a document, once an analysis can work with them. -/
def ofToml (text : String) : Except Error Config :=
  match (Toml.parse? text).bind fun members => ofJson? true (.obj (Toml.jsonMembers members)) with
  | none => .error (.config .malformed)
  | some c =>
    match c.validate with
    | .ok () => .ok c
    | .error e => .error e

/-- A truth value, written. -/
def truthText (b : Bool) : String := if b then "true" else "false"

/-- The settings as a document. -/
def document (c : Config) : String :=
  let texts (ts : List String) : String := Toml.listOf (ts.map Toml.quoted)
  Toml.documentOf
    [Toml.tableOf "project"
      [("name", Toml.quoted c.project.name),
        ("source_dirs", texts (c.project.sourceDirs.map Path.text)),
        ("ignore_patterns", texts c.project.ignorePatterns),
        ("docs_dir", Toml.quoted c.project.docsDir.text)],
    Toml.tableOf "analysis"
      [("extensions", texts c.analysis.extensions),
        ("directive_marker", Toml.quoted (String.singleton c.analysis.directiveMarker)),
        ("description_marker", Toml.quoted c.analysis.descriptionMarker),
        ("comment_marker", Toml.quoted c.analysis.commentMarker),
        ("predicate_directive", Toml.quoted c.analysis.predicateDirective),
        ("variable_directive", Toml.quoted c.analysis.variableDirective),
        ("section_directive", Toml.quoted c.analysis.sectionDirective),
        ("max_file_size", toString c.analysis.maxFileSize)],
    Toml.tableOf "graphs"
      [("enabled", truthText c.graphs.enabled),
        ("statement_graph", truthText c.graphs.statementGraph),
        ("definition_graph", truthText c.graphs.definitionGraph)],
    Toml.tableOf "output"
      [("pretty_json", truthText c.output.prettyJson),
        ("include_source_lines", truthText c.output.includeSourceLines)]]

/-- The settings as a document; integers of a document fit into 64 bits with a sign. -/
def toToml (c : Config) : Except Error String :=
  if c.analysis.maxFileSize < 9223372036854775808 then .ok c.document
    else .error (.config .sizeOutOfRange)

end AspAtlas.Config
