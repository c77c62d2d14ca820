import AspAtlas.Program.Basic
/-!
Additions to a classified program: qualifiers that tell files apart, and source texts.
-/
namespace AspAtlas

/-- What qualifies the statements of a file below a source root: `dir.file.`. -/
def Path.qualifier (file sourceRoot : Path) : String :=
  let relative := (file.stripLead? sourceRoot).getD file
  let names := (relative.withExtension "").components.filterMap fun
    | .name text => some text
    | _ => none
  if names.isEmpty then "" else ".".intercalate names ++ "."

namespace Program

/-- The program with a function applied to all statements. -/
def mapStatements (f : Statement → Statement) (p : Program) : Program :=
  { p with statements := p.statements.map f, external := p.external.map f }

/-- Qualifies every statement by its file, relative to a source root. -/
def qualify (p : Program) (sourceRoot : Path) : Program :=
  p.mapStatements fun s => { s with qualifier := s.sourceFile.qualifier sourceRoot }

/-- The lines that a statement spans in its file. -/
def sourceText? (p : Program) (s : Statement) : Option String := do
  let file ← p.source? s.sourceFile
  match s.location.begin.line with
  | 0 => none
  | first + 1 =>
    let last := min s.location.stop.line file.lines.length
    if first ≤ last then some ("\n".intercalate ((file.lines.take last).drop first)) else none

/-- Gives every statement its source text. -/
def attachSource (p : Program) : Program :=
  p.mapStatements fun s => { s with source := p.sourceText? s }

end Program
end AspAtlas
