import AspAtlas.Proofs.Program.Agreement
import AspAtlas.Proofs.Statement.Headings
/-!
The sections of a program. A statement stands below the section that was opened last for the first
time above it; a section that is opened once more does not head what follows.
-/
namespace AspAtlas

/-- The section directives above a line of a file, as its lines show them one by one. -/
def DirectiveExtractor.openedAbove (e : DirectiveExtractor) (config : AnalysisConfig)
    (f : SourceFile) (line : Nat) : List Directive :=
  (e.directivesOf (f.lines.take (line - 1)) f.path).filter
    fun d => d.name == config.sectionDirective

namespace Program

open Directive (subjectsUnder entryOn?)

variable {config : AnalysisConfig} {fs : FileSystem} {root : Path} {text : String} {p : Program}
  {s : Statement}

/-- Every statement of a program is annotated from one of its files. -/
theorem Built.annotated (h : Built config fs root text p) (hs : s ∈ p.allStatements) :
    ∃ extractor, ∃ f ∈ p.sources,
      DirectiveExtractor.new config.directiveMarker config.descriptionMarker = .ok extractor ∧
      f.path = s.sourceFile ∧
      s.heading = (annotatorOf extractor config f).headingFor s.location.line ∧
      s.comments = (annotatorOf extractor config f).commentsFor s.location := by
  obtain ⟨source, hsource, hp⟩ := h.exists_source
  obtain ⟨extractor, _, hextractor, -, hsources, hstatements, -⟩ := ofSource_spec hp
  obtain ⟨_, _, hspliced⟩ := ProgramReader.exists_spliced hsource
  obtain ⟨numbered, hnumbered, hclassified⟩ :=
    Classification.ofNodesFrom_numbered p.symbols 0 source.nodes
  have hmem : s ∈ (Program.annotated extractor config source.files
      (Classification.ofNodes p.symbols source.nodes)).filter fun t => t.isIn s.sourceFile := by
    rw [← hstatements, List.mem_filter]
    exact ⟨hs, Path.beq_iff.mpr rfl⟩
  obtain ⟨bare, hbare, rfl⟩ := List.mem_map.mp (List.mem_filter.mp hmem).1
  obtain ⟨c, hc, hstatement⟩ := List.mem_filterMap.mp hbare
  rw [Classification.ofNodes, hclassified] at hc
  obtain ⟨x, hx, rfl⟩ := List.mem_map.mp hc
  have hn : x.2 ∈ source.nodes := by
    rw [← hnumbered]
    exact List.mem_map_of_mem hx
  obtain ⟨f, hf, hlocated⟩ := hspliced.located x.2 hn
  have hfile : bare.sourceFile = f.path :=
    (Classification.file_of_statement? hstatement).trans hlocated
  have hin : bare.isIn f.path = true := by
    rw [Statement.isIn, hfile]
    exact Path.beq_iff.mpr rfl
  rw [annotateWith_of_mem hspliced.distinct hf extractor hin]
  exact ⟨extractor, f, hsources ▸ hf, hextractor, hfile.symm, rfl, rfl⟩

/-- A text without includes is built alone. -/
theorem exists_built_of_map (config : AnalysisConfig) (fs : FileSystem) (root : Path)
    (text : String) {α : Type} (g : Program → α) {a : α}
    (h : (parseItems root text).toOption.map (fun items => (targetsOf items,
      (ofSource ⟨root, statementsOf items, [.ofText root text]⟩ config).toOption.map g)) =
        some ([], some a)) :
    ∃ p, Built config fs root text p ∧ p.sources = [.ofText root text] ∧ g p = a := by
  obtain ⟨items, hparse, hprogram⟩ := exists_ok_of_toOption h
  obtain ⟨hnone, hprogram⟩ := Prod.mk.inj hprogram
  obtain ⟨p, hp, ha⟩ := exists_ok_of_toOption hprogram
  have hsource := ProgramReader.readText_of_targetsOf_eq_nil (config.reader fs) hparse hnone
  have htext : ofText fs root text config = .ok p := by
    rw [ofText, hsource]
    exact hp
  obtain ⟨_, _, -, -, hsources, -⟩ := ofSource_spec hp
  exact ⟨p, .ofText htext, hsources, ha⟩

/-- The statements of a text without includes can be told by their lines. -/
theorem exists_built_of_lines (config : AnalysisConfig) (fs : FileSystem) (root : Path)
    (text : String) (lines : List Nat)
    (h : (parseItems root text).toOption.map (fun items => (targetsOf items,
      (ofSource ⟨root, statementsOf items, [.ofText root text]⟩ config).toOption.map fun p =>
        p.allStatements.map (·.location.line))) = some ([], some lines)) :
    ∃ p, Built config fs root text p ∧ p.sources = [.ofText root text] ∧
      p.allStatements.map (·.location.line) = lines :=
  exists_built_of_map config fs root text _ h

/-- The heading at a line of a file, by the section directives above it. -/
theorem headingFor_annotatorOf (extractor : DirectiveExtractor) (config : AnalysisConfig)
    (f : SourceFile) (line : Nat) :
    (annotatorOf extractor config f).headingFor line =
      ((extractor.openedAbove config f line).map Directive.subject).eraseDups.getLast?.bind
        fun subject => entryOn? config.sectionDirective subject
          (extractor.directivesOf f.lines f.path) := by
  obtain ⟨later, hsplit, habove, hlater⟩ := extractor.directivesOf_split f.lines f.path (line - 1)
  have hascending := extractor.directivesOf_ascending f.lines f.path
  have hindex := DirectiveIndex.gathers_ofList (extractor.directivesOf f.lines f.path)
  rw [hsplit] at hascending hindex ⊢
  rw [annotatorOf, DirectiveExtractor.extract, hsplit,
    Annotator.headingFor_gathered hindex hascending habove hlater]
  rfl

/-- Every section that was opened above a line has an entry. -/
theorem subject_headingFor (extractor : DirectiveExtractor) (config : AnalysisConfig)
    (f : SourceFile) (line : Nat) :
    ((annotatorOf extractor config f).headingFor line).map Directive.subject =
      ((extractor.openedAbove config f line).map Directive.subject).eraseDups.getLast? := by
  rw [headingFor_annotatorOf]
  cases hlast : ((extractor.openedAbove config f line).map
    Directive.subject).eraseDups.getLast? with
  | none => rfl
  | some subject =>
    have hmem : subject ∈ subjectsUnder config.sectionDirective
        (extractor.directivesOf (f.lines.take (line - 1)) f.path) := List.mem_of_getLast? hlast
    obtain ⟨later, hsplit, -⟩ := extractor.directivesOf_split f.lines f.path (line - 1)
    obtain ⟨d, hd, -⟩ := Directive.exists_entryOn? hmem later
    rw [Option.bind_some, hsplit, hd, Option.map_some, (Directive.entryOn?_spec hd).2]

/-- The heading of a statement is the section, of those that are opened above it in its file, that
is opened last for the first time; there is none exactly if none is opened. It is the section of the
nearest directive above exactly if nothing new was opened since that section was opened first. -/
theorem Built.heading_opened_last (h : Built config fs root text p) (hs : s ∈ p.allStatements) :
    ∃ extractor, ∃ f ∈ p.sources,
      DirectiveExtractor.new config.directiveMarker config.descriptionMarker = .ok extractor ∧
      f.path = s.sourceFile ∧
      (s.heading = none ↔ extractor.openedAbove config f s.location.line = []) ∧
      s.heading = ((extractor.openedAbove config f s.location.line).map
        Directive.subject).eraseDups.getLast?.bind (fun subject =>
          entryOn? config.sectionDirective subject (extractor.directivesOf f.lines f.path)) ∧
      s.heading.map Directive.subject = ((extractor.openedAbove config f s.location.line).map
        Directive.subject).eraseDups.getLast? ∧
      ∀ last, (extractor.openedAbove config f s.location.line).getLast? = some last →
        (s.heading.map Directive.subject = some last.subject ↔
          ∀ before subject behind, (extractor.openedAbove config f s.location.line).map
            Directive.subject = before ++ subject :: behind →
              last.subject ∈ before → subject ∈ before) := by
  obtain ⟨extractor, f, hf, hextractor, hpath, hheading, -⟩ := h.annotated hs
  have hsubject := subject_headingFor extractor config f s.location.line
  rw [← hheading] at hsubject
  refine ⟨extractor, f, hf, hextractor, hpath, ?_, ?_, hsubject, fun last hlast => ?_⟩
  · rw [← Option.map_eq_none_iff, hsubject, List.getLast?_eq_none_iff]
    constructor
    · intro hnone
      refine List.eq_nil_iff_forall_not_mem.mpr fun d hd => ?_
      have hmem := List.mem_eraseDups.mpr (List.mem_map_of_mem (f := Directive.subject) hd)
      rw [hnone] at hmem
      cases hmem
    · intro hnone
      rw [hnone, List.map_nil, List.eraseDups_nil]
  · rw [hheading, headingFor_annotatorOf]
  · have hmem : last.subject ∈
        (extractor.openedAbove config f s.location.line).map Directive.subject :=
      List.mem_map_of_mem (List.mem_of_getLast? hlast)
    rw [hsubject, getLast?_eraseDups_eq_some_iff]
    exact ⟨fun hnew => hnew.2, fun hnew => ⟨hmem, hnew⟩⟩

section Reopened

/-- A section is opened, another one, and the first one once more. -/
def reopened : String := "%@section(A)\na.\n%@section(B)\nb.\n%@section(A)\nc.\n"

theorem exists_reopened :
    ∃ p s, Built {} (.ofFiles []) ⟨"p.lp"⟩ reopened p ∧ p.sources = [.ofText ⟨"p.lp"⟩ reopened] ∧
      s ∈ p.allStatements ∧ (DirectiveExtractor.default.openedAbove {} (.ofText ⟨"p.lp"⟩ reopened)
        s.location.line).map Directive.subject = ["A", "B", "A"] := by
  obtain ⟨p, hbuilt, hsources, hlines⟩ := exists_built_of_lines {} (.ofFiles []) ⟨"p.lp"⟩ reopened
    [2, 4, 6] (by decide +kernel)
  have hmem : 6 ∈ p.allStatements.map (·.location.line) := by
    rw [hlines]
    decide
  obtain ⟨s, hs, hline⟩ := List.mem_map.mp hmem
  refine ⟨p, s, hbuilt, hsources, hs, ?_⟩
  rw [hline]
  decide

/-- The statement behind the reopened section has a heading, which is not that section. -/
theorem heading_opened_last_of_reopened :
    ∃ p s, Built {} (.ofFiles []) ⟨"p.lp"⟩ reopened p ∧ s ∈ p.allStatements ∧
      s.heading.map Directive.subject = some "B" := by
  obtain ⟨p, s, hbuilt, hsources, hs, hopened⟩ := exists_reopened
  obtain ⟨extractor, f, hf, hextractor, -, -, -, hsubject, -⟩ := hbuilt.heading_opened_last hs
  rw [hsources, List.mem_singleton] at hf
  cases hextractor
  rw [hf] at hsubject
  refine ⟨p, s, hbuilt, hs, hsubject.trans ?_⟩
  rw [DirectiveExtractor.default] at hopened
  rw [hopened]
  decide

/-- The nearest section directive above a statement need not open its section. -/
theorem nearest_section_does_not_head :
    ∃ p s, Built {} (.ofFiles []) ⟨"p.lp"⟩ reopened p ∧ s ∈ p.allStatements ∧
      p.sources = [.ofText ⟨"p.lp"⟩ reopened] ∧
      (DirectiveExtractor.default.openedAbove {} (.ofText ⟨"p.lp"⟩ reopened)
        s.location.line).getLast?.map Directive.subject = some "A" ∧
      s.heading.map Directive.subject ≠ some "A" := by
  obtain ⟨p, s, hbuilt, hsources, hs, hopened⟩ := exists_reopened
  obtain ⟨extractor, f, hf, hextractor, -, hheading, -⟩ := hbuilt.annotated hs
  rw [hsources, List.mem_singleton] at hf
  cases hextractor
  have hsubject := subject_headingFor DirectiveExtractor.default {} f s.location.line
  rw [hf, hopened] at hsubject
  refine ⟨p, s, hbuilt, hs, hsources, ?_, ?_⟩
  · rw [← List.getLast?_map, hopened]
    rfl
  · rw [hheading, hf]
    intro he
    have hwrong := hsubject.symm.trans he
    revert hwrong
    decide

end Reopened

end Program
end AspAtlas
