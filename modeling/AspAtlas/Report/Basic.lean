import AspAtlas.Graph.Json
import AspAtlas.Json.Parser
import AspAtlas.Json.Printer
import AspAtlas.Program.Basic
import AspAtlas.Report.Timestamp
import AspAtlas.Statement.Json
/-!
Reports: what is documented about a program, as one JSON text that can be read back.
-/
namespace AspAtlas

/-- How many own statements of each kind there are, and how much else. -/
structure ReportSummary where
  rules : Nat
  facts : Nat
  constraints : Nat
  definitions : Nat
  inputs : Nat
  outputs : Nat
  external : Nat
  diagnostics : Nat
deriving DecidableEq, Repr

/-- What is documented about a program. -/
structure Report where
  path : Path
  contentHash : String
  generatedAt : Timestamp
  statements : List Statement
  external : List Statement
  symbols : List Symbol
  vars : List Variable
  directives : DirectiveIndex
  diagnostics : List Diagnostic
  statementGraph : StatementGraph
  definitionGraph : DefinitionGraph
  summary : ReportSummary

namespace Diagnostic

/-- A diagnostic, written. -/
def toJson (d : Diagnostic) : Json :=
  .obj [("location", .ofLocation d.location), ("message", .str d.message)]

/-- A diagnostic, read. -/
def ofJson? (j : Json) : Option Diagnostic := do
  let r ← Json.record? ["location", "message"] j
  some ⟨← r.field "location" Json.location?, ← r.field "message" Json.text?⟩

end Diagnostic

namespace ReportSummary

/-- The summary of a program. -/
def ofProgram (p : Program) : ReportSummary :=
  let count (kind : StatementKind) : Nat := (p.ofKind kind).length
  { rules := count .rule
    facts := count .fact
    constraints := count .constraint
    definitions := count .definition
    inputs := count .input
    outputs := count .output
    external := p.external.length
    diagnostics := p.diagnostics.length }

/-- A summary, written. -/
def toJson (s : ReportSummary) : Json :=
  .obj
    [("rules", .nat s.rules), ("facts", .nat s.facts), ("constraints", .nat s.constraints),
      ("definitions", .nat s.definitions), ("inputs", .nat s.inputs), ("outputs", .nat s.outputs),
      ("external", .nat s.external), ("diagnostics", .nat s.diagnostics)]

/-- The keys of a written summary. -/
def jsonKeys : List String :=
  ["rules", "facts", "constraints", "definitions", "inputs", "outputs", "external", "diagnostics"]

/-- A summary, read. -/
def ofJson? (j : Json) : Option ReportSummary := do
  let r ← Json.record? jsonKeys j
  some {
    rules := ← r.field "rules" Json.nat?
    facts := ← r.field "facts" Json.nat?
    constraints := ← r.field "constraints" Json.nat?
    definitions := ← r.field "definitions" Json.nat?
    inputs := ← r.field "inputs" Json.nat?
    outputs := ← r.field "outputs" Json.nat?
    external := ← r.field "external" Json.nat?
    diagnostics := ← r.field "diagnostics" Json.nat? }

end ReportSummary

namespace Report

/-- The report on a program, made at an instant. -/
def ofProgram (p : Program) (generatedAt : Timestamp) : Report where
  path := p.path
  contentHash := p.contentHash
  generatedAt
  statements := p.statements
  external := p.external
  symbols := p.symbols.symbols
  vars := p.vars.toList
  directives := p.directives
  diagnostics := p.diagnostics
  statementGraph := p.statementGraph
  definitionGraph := p.definitionGraph
  summary := .ofProgram p

/-- A report, written. -/
def toJson (r : Report) : Json :=
  .obj
    [("path", .ofPath r.path), ("content_hash", .str r.contentHash),
      ("generated_at", .str r.generatedAt.print),
      ("statements", .ofList Statement.toJson r.statements),
      ("external_statements", .ofList Statement.toJson r.external),
      ("symbols", .ofList Symbol.toJson r.symbols),
      ("variables", .ofList Variable.toJson r.vars),
      ("directives", r.directives.toJson),
      ("diagnostics", .ofList Diagnostic.toJson r.diagnostics),
      ("statement_graph", r.statementGraph.toJson),
      ("definition_graph", r.definitionGraph.toJson), ("summary", r.summary.toJson)]

/-- The keys of a written report. -/
def jsonKeys : List String :=
  ["path", "content_hash", "generated_at", "statements", "external_statements", "symbols",
    "variables", "directives", "diagnostics", "statement_graph", "definition_graph", "summary"]

/-- A report, read. -/
def ofJson? (j : Json) : Option Report := do
  let r ← Json.record? jsonKeys j
  some {
    path := ← r.field "path" Json.path?
    contentHash := ← r.field "content_hash" Json.text?
    generatedAt := ← r.field "generated_at" fun j => j.text?.bind Timestamp.parse?
    statements := ← r.field "statements" (Json.list? Statement.ofJson?)
    external := ← r.field "external_statements" (Json.list? Statement.ofJson?)
    symbols := ← r.field "symbols" (Json.list? Symbol.ofJson?)
    vars := ← r.field "variables" (Json.list? Variable.ofJson?)
    directives := ← r.field "directives" DirectiveIndex.ofJson?
    diagnostics := ← r.field "diagnostics" (Json.list? Diagnostic.ofJson?)
    statementGraph := ← r.field "statement_graph" StatementGraph.ofJson?
    definitionGraph := ← r.field "definition_graph" DefinitionGraph.ofJson?
    summary := ← r.field "summary" ReportSummary.ofJson? }

/-- The text of a report. -/
def print (r : Report) (layout : Json.Layout) : String := r.toJson.print layout

/-- The report that a text stands for. -/
def parse (text : String) : Except Error Report :=
  match (Json.parse? text).bind ofJson? with
  | some r => .ok r
  | none => .error .serialization

end Report
end AspAtlas
