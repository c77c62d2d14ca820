import AspAtlas.Config.Basic
import AspAtlas.Directive.Extract
import AspAtlas.Graph.Definition
import AspAtlas.Graph.Statement
import AspAtlas.Reader.Source
import AspAtlas.Statement.Annotation
import AspAtlas.Statement.Classification
import AspAtlas.Symbol.Variable
/-!
Programs: one file with its includes, classified and annotated. Predicates, variables and directives
are those of the root file; statements are kept apart by whether they stand in it.
-/
namespace AspAtlas

/-- A rule that could not be classified. -/
structure Diagnostic where
  location : Location
  message : String
deriving BEq, Repr

/-- A classified program. -/
structure Program where
  path : Path
  /-- The digest of the root file. -/
  contentHash : String
  /-- The statements of the root file, in order. -/
  statements : List Statement
  /-- The statements of included files, in order. -/
  external : List Statement
  symbols : SymbolRegistry
  vars : VariableRegistry
  /-- The directives of the root file. -/
  directives : DirectiveIndex
  diagnostics : List Diagnostic
  /-- The root file first, then every included file. -/
  sources : List SourceFile

namespace Program

/-- The last of some files with a path. -/
def lastFile? (files : List SourceFile) (path : Path) : Option SourceFile :=
  files.reverse.find? fun f => f.path == path

/-- The annotators of some files, later files first. -/
def annotators (extractor : DirectiveExtractor) (config : AnalysisConfig)
    (files : List SourceFile) : List (Path × Annotator) :=
  files.reverse.map fun f =>
    (f.path,
      .new (extractor.extract f.lines f.path) config.sectionDirective f.lines config.commentMarker)

/-- A statement, annotated when its file is among those of the annotators. -/
def annotateWith (annotators : List (Path × Annotator)) (s : Statement) : Statement :=
  match annotators.find? fun a => a.1 == s.sourceFile with
  | some a => a.2.annotate s
  | none => s

/-- What is reported about a rule without predicates. -/
def diagnosticOf? : Classification → Option Diagnostic
  | .unclassifiable location =>
    some ⟨location, "statement neither defines nor depends on any predicate"⟩
  | _ => none

/-- Classifies and annotates what was read. -/
def ofSource (source : ParsedSource) (config : AnalysisConfig) : Except Error Program := do
  let extractor ← DirectiveExtractor.new config.directiveMarker config.descriptionMarker
  let directives := match lastFile? source.files source.root with
    | some f => extractor.extract f.lines f.path
    | none => {}
  let symbols := SymbolRegistry.extract source.nodes source.root directives
    config.predicateDirective
  let classified := Classification.ofNodes symbols source.nodes
  let annotators := annotators extractor config source.files
  let statements := (classified.filterMap Classification.statement?).map (annotateWith annotators)
  let (own, external) := statements.partition fun s => s.isIn source.root
  return {
    path := source.root
    contentHash := (source.files.head?.map SourceFile.contentHash).getD ""
    statements := own
    external
    symbols
    vars := .extract source.nodes source.root directives config.variableDirective
    directives
    diagnostics := classified.filterMap diagnosticOf?
    sources := source.files }

/-- Reads a text as the content of a path and classifies it. -/
def ofText (fileSystem : FileSystem) (path : Path) (text : String) (config : AnalysisConfig) :
    Except Error Program := do
  ofSource (← (ProgramReader.mk fileSystem config.maxFileSize).readText path text) config

/-- Reads a file with everything it includes and classifies it. -/
def load (fileSystem : FileSystem) (path : Path) (config : AnalysisConfig) :
    Except Error Program := do
  ofSource (← (ProgramReader.mk fileSystem config.maxFileSize).load path) config

/-- The statements of the root file, then those of included files. -/
def allStatements (p : Program) : List Statement := p.statements ++ p.external

/-- The own statements of a kind. -/
def ofKind (p : Program) (kind : StatementKind) : List Statement :=
  p.statements.filter fun s => s.kind == kind

/-- The own statements in the section of a name. -/
def inSection (p : Program) (name : String) : List Statement :=
  p.statements.filter fun s =>
    match s.heading with
    | some heading => heading.subject == name
    | none => false

/-- The own statements outside of all sections. -/
def unsectioned (p : Program) : List Statement := p.statements.filter fun s => s.heading.isNone

/-- The source file of a path. -/
def source? (p : Program) (path : Path) : Option SourceFile :=
  p.sources.find? fun f => f.path == path

/-- The graph of all statements. -/
def statementGraph (p : Program) : StatementGraph := .build p.allStatements

/-- The graph of all definitions. -/
def definitionGraph (p : Program) : DefinitionGraph := .build p.path p.allStatements

end Program
end AspAtlas
