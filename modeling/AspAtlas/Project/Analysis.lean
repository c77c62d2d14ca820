import AspAtlas.Config.Basic
import AspAtlas.Disk.Source
import AspAtlas.Program.Decoration
import AspAtlas.Project.Discovery
import AspAtlas.Project.Outcome
import AspAtlas.Report.Basic
/-!
Analysing the programs of a project. Every program is analysed on its own: one that cannot be read
is noted, and the others go on.
-/
namespace AspAtlas

/-- The graphs that can be asked for. -/
inductive GraphKind where
  | statement
  | definition
deriving DecidableEq, Repr

namespace GraphKind

/-- The name of a kind. -/
def name : GraphKind → String
  | statement => "Statement"
  | definition => "Definition"

/-- The extension of the files that a kind of graph is written to. -/
def extension : GraphKind → String
  | statement => "rdg.dot"
  | definition => "ddg.dot"

/-- The kind that a word asks for. -/
def ofWord (word : String) : Except Error GraphKind :=
  if word = "statement" ∨ word = "rdg" then .ok statement
  else if word = "definition" ∨ word = "ddg" then .ok definition
  else .error (.config (.graphKind word))

end GraphKind

namespace Project

/-- What an analysis of several programs has come to. -/
structure Summary where
  analyzed : List Path := []
  failed : List (Path × Error) := []
  statements : Nat := 0
  diagnostics : Nat := 0

namespace Summary

/-- Whether every program could be read, and without diagnostics. -/
def isClean (s : Summary) : Bool := s.failed.isEmpty && s.diagnostics == 0

/-- The summary with one more program. -/
def add (s : Summary) (file : Path) (p : Program) : Summary :=
  { s with
    analyzed := s.analyzed ++ [file]
    statements := s.statements + p.statements.length
    diagnostics := s.diagnostics + p.diagnostics.length }

/-- The summary with one more program that could not be read. -/
def addFailure (s : Summary) (file : Path) (e : Error) : Summary :=
  { s with failed := s.failed ++ [(file, e)] }

end Summary

/-- The program of a file, qualified relative to a source root if one is given. -/
def analyzeFile (c : Config) (d : Disk) (file : Path) (sourceRoot : Option Path) :
    Except Error Program :=
  (Program.load d.fileSystem file c.analysis).map fun p =>
    let p := match sourceRoot with
      | some root => p.qualify root
      | none => p
    if c.output.includeSourceLines then p.attachSource else p

/-- The DOT text of a graph of a program. -/
def dotOf (p : Program) : GraphKind → String
  | .statement => p.statementGraph.toDot
  | .definition => p.definitionGraph.toDot

/-- One graph of the program of a file, as DOT text. -/
def graph (c : Config) (d : Disk) (file : Path) (kind : GraphKind) : Except Failure String :=
  match analyzeFile c d file none with
  | .ok p => .ok (dotOf p kind)
  | .error e => .error ⟨some s!"Failed to analyze {file.text}", .error e⟩

/-- Where the report on a program is written, up to its extension. -/
def reportBase (p : Program) (source output : Path) : Path :=
  output.join ((p.path.stripLead? source).getD p.path).text

/-- The graphs that are written. -/
def graphKinds (c : GraphConfig) : List GraphKind :=
  if c.enabled then
    (if c.statementGraph then [.statement] else []) ++
    (if c.definitionGraph then [.definition] else [])
  else []

/-- The files that are written about a program, with their texts. -/
def outputs (c : Config) (now : Timestamp) (p : Program) (base : Path) : List (Path × String) :=
  let layout := if c.output.prettyJson then Json.Layout.pretty else .compact
  (base.withExtension "json", (Report.ofProgram p now).print layout)
    :: (graphKinds c.graphs).map fun kind => (base.withExtension kind.extension, dotOf p kind)

/-- Writes files one after the other. -/
def writeAll : List (Path × String) → Disk → Outcome Unit
  | [], d => .done () d
  | (path, text) :: rest, d => (Outcome.write path text d).andThen fun _ d => writeAll rest d

/-- Writes the report and the graphs of a program. -/
def writeOutputs (c : Config) (now : Timestamp) (output : Path) (p : Program) (source : Path)
    (d : Disk) : Outcome Unit :=
  let base := reportBase p source output
  let folder := match base.parent? with
    | some parent => Outcome.createFolders "" parent d
    | none => .done () d
  folder.andThen fun _ d => writeAll (outputs c now p base) d

/-- Analyses files one after the other, and hands each program on. -/
def analyzeFiles (c : Config) (sourceRoot : Option Path) (use : Program → Disk → Outcome Unit) :
    List Path → Summary → Disk → Outcome Summary
  | [], s, d => .done s d
  | file :: rest, s, d =>
    match analyzeFile c d file sourceRoot with
    | .ok p =>
      (use p d).andThen fun _ d => analyzeFiles c sourceRoot use rest (s.add file p) d
    | .error e => analyzeFiles c sourceRoot use rest (s.addFailure file e) d

/-- Analyses source folders one after the other; missing ones are passed over. Statements are
qualified when a folder holds more than one program. -/
def analyzeSources (c : Config) (use : Program → Path → Disk → Outcome Unit) :
    List Path → Summary → Disk → Outcome Summary
  | [], s, d => .done s d
  | source :: rest, s, d =>
    if d.isPresent source then
      match discover c d source with
      | .error e => .failed ⟨none, .error e⟩ d
      | .ok files =>
        let sourceRoot := if 1 < files.length then some source else none
        (analyzeFiles c sourceRoot (fun p => use p source) files s d).andThen fun s d =>
          analyzeSources c use rest s d
    else analyzeSources c use rest s d

/-- The source folders of a run: a given one, or those of the settings. -/
def sourcesOf (c : Config) : Option Path → List Path
  | some source => [source]
  | none => c.project.sourceDirs

/-- Analyses every program, and writes reports and graphs. -/
def analyze (c : Config) (now : Timestamp) (source output : Option Path) (d : Disk) :
    Outcome Summary :=
  let output := output.getD c.project.docsDir
  (Outcome.createFolders "output directory " output d).andThen fun _ d =>
    analyzeSources c (writeOutputs c now output) (sourcesOf c source) {} d

/-- Analyses every program without writing anything. Programs that cannot be read are a failure, and
so are diagnostics in strict mode. -/
def check (c : Config) (strict : Bool) (d : Disk) : Outcome Summary :=
  (analyzeSources c (fun _ _ d => .done () d) (sourcesOf c none) {} d).andThen fun s d =>
    if !s.failed.isEmpty then .failed ⟨none, .programsFailed s.failed.length⟩ d
    else if strict ∧ 0 < s.diagnostics then .failed ⟨none, .diagnosticsRaised s.diagnostics⟩ d
    else .done s d

end Project
end AspAtlas
