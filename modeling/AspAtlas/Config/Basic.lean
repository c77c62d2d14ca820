import AspAtlas.Error
import AspAtlas.Path.Basic
import AspAtlas.Text.Blank
/-!
Settings, their defaults, and the settings that no analysis can work with.
-/
namespace AspAtlas

/-- What to analyse and where to write. -/
structure ProjectConfig where
  name : String := "Unnamed Project"
  sourceDirs : List Path := [⟨"src"⟩]
  /-- Patterns of paths that are skipped below a source directory. -/
  ignorePatterns : List String := ["target/", ".git/", "*.tmp"]
  docsDir : Path := ⟨"docs"⟩
deriving BEq, Repr

/-- How programs are read and documented. -/
structure AnalysisConfig where
  /-- The extensions of program files. -/
  extensions : List String := ["lp"]
  directiveMarker : Char := '@'
  descriptionMarker : String := "->"
  /-- What starts a documentation comment. -/
  commentMarker : String := "%-"
  /-- The directive that documents predicates. -/
  predicateDirective : String := "predicate"
  /-- The directive that documents variables. -/
  variableDirective : String := "term"
  /-- The directive that opens a section. -/
  sectionDirective : String := "section"
  /-- The size in bytes above which a file is not read. -/
  maxFileSize : Nat := 1048576
deriving BEq, Repr

/-- Which graphs are written. -/
structure GraphConfig where
  enabled : Bool := true
  statementGraph : Bool := true
  definitionGraph : Bool := true
deriving BEq, Repr

/-- How reports are written. -/
structure OutputConfig where
  prettyJson : Bool := true
  /-- Whether reports hold the source text of statements. -/
  includeSourceLines : Bool := false
deriving BEq, Repr

/-- All settings. -/
structure Config where
  project : ProjectConfig := {}
  analysis : AnalysisConfig := {}
  graphs : GraphConfig := {}
  output : OutputConfig := {}
deriving BEq, Repr

namespace AnalysisConfig

/-- The settings that must not be blank, in the order in which they are checked. -/
def texts (c : AnalysisConfig) : List (String × String) :=
  [("analysis.description_marker", c.descriptionMarker),
    ("analysis.comment_marker", c.commentMarker),
    ("analysis.predicate_directive", c.predicateDirective),
    ("analysis.variable_directive", c.variableDirective),
    ("analysis.section_directive", c.sectionDirective)]

/-- Why the settings cannot be used, if they cannot. -/
def fault? (c : AnalysisConfig) : Option ConfigCause :=
  if c.extensions.isEmpty then some .noExtensions
  else
    match c.texts.find? fun setting => (Text.trim setting.2.toList).isEmpty with
    | some setting => some (.blankSetting setting.1)
    | none => if Text.isBlank c.directiveMarker then some .blankMarker else none

/-- Whether a path has the extension of a program. -/
def isProgramFile (c : AnalysisConfig) (path : Path) : Bool :=
  match path.extension? with
  | some extension => c.extensions.contains extension
  | none => false

end AnalysisConfig

namespace Config

/-- Accepts settings that an analysis can work with. -/
def validate (c : Config) : Except Error Unit :=
  match c.analysis.fault? with
  | some cause => .error (.config cause)
  | none => .ok ()

end Config
end AspAtlas
