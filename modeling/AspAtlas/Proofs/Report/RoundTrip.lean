import AspAtlas.Proofs.Graph.Codec
import AspAtlas.Proofs.Report.Timestamp
import AspAtlas.Report.Basic
/-!
Reports that are written and read. A report is read back from its text in either layout, so that
writing anew what was read changes nothing a second time.
-/
namespace AspAtlas

open Json

/-- A summary with numbers of 64 bits. -/
structure ReportSummary.Fits (s : ReportSummary) : Prop where
  rules : IsWord s.rules
  facts : IsWord s.facts
  constraints : IsWord s.constraints
  definitions : IsWord s.definitions
  inputs : IsWord s.inputs
  outputs : IsWord s.outputs
  external : IsWord s.external
  diagnostics : IsWord s.diagnostics

/-- A report of an instant that exists, with numbers of 64 bits. -/
structure Report.Fits (r : Report) : Prop where
  generatedAt : r.generatedAt.isValid = true
  statements : ∀ s ∈ r.statements, s.Fits
  external : ∀ s ∈ r.external, s.Fits
  symbols : ∀ s ∈ r.symbols, s.Fits
  vars : ∀ v ∈ r.vars, v.Fits
  directives : ∀ g ∈ r.directives.groups, ∀ d ∈ g.directives, d.Fits
  diagnostics : ∀ d ∈ r.diagnostics, d.location.Fits
  statementGraph : r.statementGraph.Fits
  summary : r.summary.Fits

namespace Json.Codec

theorem diagnostic : Codec Diagnostic.toJson Diagnostic.ofJson? fun d => d.location.Fits where
  plain d := .obj (by simp [location.plain, text.plain])
  read_write {d} h := by
    have hrecord : record? ["location", "message"] d.toJson = some ⟨_, false⟩ :=
      record?_obj (by simp) (.refl _)
    simp only [Diagnostic.ofJson?, ↓bind_eq_some_iff, Option.some.injEq]
    refine ⟨_, hrecord, _, location.read_field h ?_, _, text.read_field trivial ?_, rfl⟩ <;> simp
  fits_of_read {j d} h := by
    simp only [Diagnostic.ofJson?, ↓bind_eq_some_iff, Option.some.injEq] at h
    obtain ⟨r, -, place, hplace, message, -, rfl⟩ := h
    exact location.fits_field hplace

theorem summary : Codec ReportSummary.toJson ReportSummary.ofJson? ReportSummary.Fits where
  plain s := .obj (by simp [nat.plain])
  read_write {s} h := by
    have hrecord : record? ReportSummary.jsonKeys s.toJson = some ⟨_, false⟩ :=
      record?_obj (by simp [ReportSummary.jsonKeys]) (.refl _)
    simp only [ReportSummary.ofJson?, ↓bind_eq_some_iff, Option.some.injEq]
    refine ⟨_, hrecord, _, nat.read_field h.rules ?_, _, nat.read_field h.facts ?_, _,
      nat.read_field h.constraints ?_, _, nat.read_field h.definitions ?_, _,
      nat.read_field h.inputs ?_, _, nat.read_field h.outputs ?_, _,
      nat.read_field h.external ?_, _, nat.read_field h.diagnostics ?_, rfl⟩ <;> simp
  fits_of_read {j s} h := by
    simp only [ReportSummary.ofJson?, ↓bind_eq_some_iff, Option.some.injEq] at h
    obtain ⟨r, -, rules, hrules, facts, hfacts, constraints, hconstraints,
      definitions, hdefinitions, inputs, hinputs, outputs, houtputs, external, hexternal,
      diagnostics, hdiagnostics, rfl⟩ := h
    exact ⟨nat.fits_field hrules, nat.fits_field hfacts, nat.fits_field hconstraints,
      nat.fits_field hdefinitions, nat.fits_field hinputs, nat.fits_field houtputs,
      nat.fits_field hexternal, nat.fits_field hdiagnostics⟩

theorem report : Codec Report.toJson Report.ofJson? Report.Fits where
  plain r := .obj (by
    simp [path.plain, text.plain, statement.list.plain, symbol.list.plain,
      var.list.plain, directiveIndex.plain, diagnostic.list.plain, statementGraph.plain,
      definitionGraph.plain, summary.plain])
  read_write {r} h := by
    have hrecord : record? Report.jsonKeys r.toJson = some ⟨_, false⟩ :=
      record?_obj (by simp [Report.jsonKeys]) (.refl _)
    simp only [Report.ofJson?, ↓bind_eq_some_iff, Option.some.injEq]
    refine ⟨_, hrecord, _, path.read_field trivial ?_, _, text.read_field trivial ?_, _,
      Timestamp.codec.read_field h.generatedAt ?_, _, statement.list.read_field h.statements ?_, _,
      statement.list.read_field h.external ?_, _, symbol.list.read_field h.symbols ?_, _,
      var.list.read_field h.vars ?_, _, directiveIndex.read_field h.directives ?_, _,
      diagnostic.list.read_field h.diagnostics ?_, _,
      statementGraph.read_field h.statementGraph ?_, _,
      definitionGraph.read_field trivial ?_, _, summary.read_field h.summary ?_, rfl⟩ <;> simp
  fits_of_read {j r} h := by
    simp only [Report.ofJson?, ↓bind_eq_some_iff, Option.some.injEq] at h
    obtain ⟨_, -, file, -, hash, -, generatedAt, htime, statements, hstatements,
      external, hexternal,
      symbols, hsymbols, vars, hvars, directives, hdirectives, diagnostics, hdiagnostics,
      edges, hedges, definitions, -, counts, hcounts, rfl⟩ := h
    exact ⟨Timestamp.codec.fits_field htime, statement.list.fits_field hstatements,
      statement.list.fits_field hexternal, symbol.list.fits_field hsymbols,
        var.list.fits_field hvars,
      directiveIndex.fits_field hdirectives, diagnostic.list.fits_field hdiagnostics,
      statementGraph.fits_field hedges, summary.fits_field hcounts⟩

end Json.Codec

namespace Report

variable {text written : String} {r : Report} {layout : Layout}

theorem parse_eq_ok_iff : parse text = .ok r ↔ (Json.parse? text).bind ofJson? = some r := by
  rw [parse]
  split <;> simp [*]

theorem parse_print_of_fits (h : r.Fits) (layout : Layout) : parse (r.print layout) = .ok r :=
  parse_eq_ok_iff.mpr (Codec.report.parse?_print h layout)

theorem fits_of_parse (h : parse text = .ok r) : r.Fits := by
  obtain ⟨j, -, hj⟩ := Option.bind_eq_some_iff.mp (parse_eq_ok_iff.mp h)
  exact Codec.report.fits_of_read hj

/-- Writes anew what a text stands for. -/
def rewrite (layout : Layout) (text : String) : Except Error String :=
  (parse text).map (·.print layout)

theorem exists_of_rewrite (h : rewrite layout text = .ok written) :
    ∃ r, parse text = .ok r ∧ r.print layout = written := by
  rw [rewrite] at h
  cases hparse : parse text with
  | error e =>
    rw [hparse] at h
    cases h
  | ok r =>
    rw [hparse] at h
    exact ⟨r, rfl, Except.ok.inj h⟩

/-- A report is read back as it was from its text, whatever the layout. Every report that is read is
such a report, so a text that was written anew stands for the same as before. -/
theorem parse_print_rewrite_idempotent :
    (∀ (r : Report) (layout : Layout), r.Fits → parse (r.print layout) = .ok r) ∧
    (∀ (text : String) (r : Report), parse text = .ok r → r.Fits) ∧
    ∀ (layout layout' : Layout) (text written : String), rewrite layout text = .ok written →
      rewrite layout' written = rewrite layout' text := by
  refine ⟨fun r layout h => parse_print_of_fits h layout, fun text r h => fits_of_parse h, ?_⟩
  intro layout layout' text written h
  obtain ⟨r, hparse, rfl⟩ := exists_of_rewrite h
  have hback : parse (r.print layout) = .ok r := parse_print_of_fits (fits_of_parse hparse) layout
  rw [rewrite, rewrite, hback, hparse]

/-- A place in a file whose name has to be escaped, up to the last column there can be. -/
def edgePlace : Location := ⟨⟨"a \"b\"\\ä.lp"⟩, ⟨1, 1⟩, ⟨2, 18446744073709551615⟩⟩

theorem fits_edgePlace : edgePlace.Fits :=
  ⟨⟨by simp [edgePlace, IsWord], by simp [edgePlace, IsWord]⟩,
    ⟨by simp [edgePlace, IsWord], by simp [edgePlace, IsWord]⟩⟩

/-- A report that leaves out all that may be left out, among texts that have to be escaped. -/
def sparse : Report where
  path := edgePlace.file
  contentHash := ""
  generatedAt := ⟨-1, 2, 28, 23, 59, 60, 120000⟩
  statements := [.bare .rule "\u0001\t\n" [] [] edgePlace none]
  external := [{ Statement.bare .constraint "" [] [] edgePlace (some 0) with qualifier := "é." }]
  symbols := [⟨"p", 0, "p/0", .empty, edgePlace, none, 0⟩]
  vars := [⟨"X", edgePlace, some "\\", []⟩]
  directives := ⟨[⟨"section", [⟨"section", [], none, 0, edgePlace.file⟩]⟩, ⟨"", []⟩]⟩
  diagnostics := [⟨edgePlace, "\"\u007f\""⟩]
  statementGraph := ⟨[⟨0, "", .fact, "", edgePlace⟩], .empty⟩
  definitionGraph := ⟨OrderedMap.empty.insert .constraints .empty, .empty, .empty⟩
  summary := ⟨1, 0, 0, 0, 0, 0, 1, 1⟩

theorem fits_sparse : sparse.Fits where
  generatedAt := by decide
  statements := List.forall_mem_singleton.mpr
    ⟨by simp [Statement.bare], by simp [Statement.bare], by simp [Statement.bare], fits_edgePlace,
      by simp [Statement.bare]⟩
  external := List.forall_mem_singleton.mpr
    ⟨by simp [Statement.bare], by simp [Statement.bare], by simp [Statement.bare], fits_edgePlace,
      by simp [Statement.bare, IsWord]⟩
  symbols := List.forall_mem_singleton.mpr
    ⟨by simp [IsWord], by simp [OrderedMap.empty], fits_edgePlace, by simp [IsWord]⟩
  vars := List.forall_mem_singleton.mpr ⟨fits_edgePlace, by simp⟩
  directives := by
    have hdirective : Directive.Fits ⟨"section", [], none, 0, edgePlace.file⟩ := ⟨by simp [IsWord]⟩
    simp [sparse, hdirective]
  diagnostics := List.forall_mem_singleton.mpr fits_edgePlace
  statementGraph :=
    ⟨List.forall_mem_singleton.mpr ⟨by simp [IsWord], fits_edgePlace⟩,
      by simp [sparse, OrderedSet.empty]⟩
  summary := by constructor <;> simp [sparse, IsWord]

theorem parse_print_rewrite_idempotent_of_sparse :
    sparse.Fits ∧ parse (sparse.print .pretty) = .ok sparse ∧
      rewrite .pretty (sparse.print .compact) = .ok (sparse.print .pretty) ∧
      rewrite .compact (sparse.print .pretty) = rewrite .compact (sparse.print .compact) := by
  obtain ⟨hparse, hfits, hrewrite⟩ := parse_print_rewrite_idempotent
  have hcompact : parse (sparse.print .compact) = .ok sparse := hparse sparse .compact fits_sparse
  have hpretty : rewrite .pretty (sparse.print .compact) = .ok (sparse.print .pretty) := by
    rw [rewrite, hcompact]
    rfl
  exact ⟨hfits _ sparse hcompact, hparse sparse .pretty fits_sparse, hpretty,
    hrewrite .pretty .compact _ _ hpretty⟩

end Report
end AspAtlas
