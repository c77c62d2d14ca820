import AspAtlas.Proofs.Program.Agreement
import AspAtlas.Proofs.Surface.Extent
import AspAtlas.Report.Basic
import Mathlib.Data.List.TakeWhile
/-!
Where the top-level nodes of a program go. Each of them becomes an own statement, a statement of an
included file or a diagnostic, or is left out by its kind, and nothing else is in a program.
-/
namespace AspAtlas

namespace Node

/-- No route leads to an atom exactly where no atom stands anywhere in the tree. -/
theorem topAtoms_eq_nil_iff (n : Node) :
    n.topAtoms = [] ↔ ∀ m ∈ n.visit fun _ => true, m.isAtom = false := by
  induction n using Node.induction with
  | step n ih =>
    rw [topAtoms_eq, visit_eq_items]
    by_cases hatom : n.isAtom = true
    · simp [hatom]
    · have hbelow : (n.kind.childFields.flatMap fun f => (n.items f).flatMap topAtoms) = [] ↔
          ∀ f ∈ n.kind.childFields, ∀ m ∈ n.items f, ∀ k ∈ m.visit fun _ => true,
            k.isAtom = false := by
        simp only [List.flatMap_eq_nil_iff]
        constructor
        · intro h f hf m hm
          exact (ih f m hm).mp (h f hf m hm)
        · intro h f hf m hm
          exact (ih f m hm).mpr (h f hf m hm)
      simp only [hatom, Bool.false_eq_true, if_false, if_true, hbelow, List.mem_cons,
        List.mem_flatMap, forall_eq_or_imp, true_and]
      constructor
      · rintro h k ⟨f, hf, m, hm, hk⟩
        exact h f hf m hm k hk
      · intro h f hf m hm k hk
        exact h k ⟨f, hf, m, hm, hk⟩

/-- A top-level node that is not documented: the begin of a part, what is optimised, an external
atom, or the statement that shows nothing by itself, which names no predicate. -/
def IsLeftOut (n : Node) : Prop :=
  n.kind = .program ∨ n.kind = .minimize ∨ n.kind = .external ∨
    n.kind = .showSignature ∧ n.name = some ""

/-- A rule in which no predicate occurs. -/
def IsVoidRule (n : Node) : Prop :=
  n.kind = .rule ∧ ∀ m ∈ n.visit fun _ => true, m.isAtom = false

/-- What the reader makes of a statement: one of eight kinds, a shown signature with its name, a
shown term with the term. -/
def IsTopLevel (n : Node) : Prop :=
  n.kind = .rule ∨ n.kind = .defined ∨ n.kind = .definition ∨ n.kind = .program ∨
    n.kind = .minimize ∨ n.kind = .external ∨ (n.kind = .showSignature ∧ n.name.isSome = true) ∨
    n.kind = .showTerm ∧ (n.node? .term).isSome = true

end Node

namespace Surface

theorem isTopLevel_of_lower {file : Path} {s : Statement} {items : List Item} {n : Node}
    (h : s.lower file = .ok items) (hn : .statement n ∈ items) : n.IsTopLevel := by
  obtain ⟨hsame, -⟩ := node_of_lower h hn
  cases s with
  | includes span target => cases hsame
  | showSignature span name digits =>
    simp only [Statement.lower, lowerSignature] at h
    split at h <;> cases h
    cases List.mem_singleton.mp hn
    simp [Node.IsTopLevel, named, Span.node]
  | showAll span =>
    cases h
    cases List.mem_singleton.mp hn
    simp [Node.IsTopLevel, named, Span.node]
  | showTerm span term body =>
    cases h
    cases List.mem_singleton.mp hn
    simp [Node.IsTopLevel, Span.node, Node.withNode, Node.withSequence, Node.withChild, Node.node?,
      Children.node?, Children.get?_put]
  | _ =>
    have hkind := Option.some.inj hsame
    simp [Node.IsTopLevel, ← hkind]

theorem isTopLevel_of_groups {file : Path} {statements : List Statement} {groups : List (List Item)}
    (h : List.Forall₂ (fun s group => Statement.lower file s = .ok group) statements
      groups) {n : Node}
    (hn : .statement n ∈ groups.flatten) : n.IsTopLevel := by
  induction h with
  | nil => cases hn
  | cons hs _ ih =>
    rcases List.mem_append.mp hn with hn | hn
    · exact isTopLevel_of_lower hs hn
    · exact ih hn

theorem isTopLevel_of_parseItems {file : Path} {text : String} {items : List Item} {n : Node}
    (h : parseItems file text = .ok items) (hn : n ∈ statementsOf items) : n.IsTopLevel := by
  simp only [parseItems] at h
  cases hparse : parse? text with
  | none => simp [hparse] at h
  | some statements =>
    cases hlower : lowerProgram file statements with
    | error digits => simp [hparse, hlower] at h
    | ok found =>
      simp only [hparse, hlower, Except.ok.injEq] at h
      obtain ⟨groups, hgroups, hall⟩ := lowerProgram_groups hlower
      rw [← h, hgroups, mem_statementsOf] at hn
      exact isTopLevel_of_groups hall hn

end Surface

namespace Classification

variable {r : SymbolRegistry} {n : Node}

/-- A registry that is faithful to a node finds nothing there only if no predicate occurs. -/
theorem collect_eq_nil_iff (h : r.Faithful n) :
    (r.collect n).defines = [] ∧ (r.collect n).dependsOn = [] ↔
      ∀ m ∈ n.visit fun _ => true, m.isAtom = false := by
  rw [← Node.topAtoms_eq_nil_iff]
  have hinterleaves := SymbolRegistry.collect_interleaves r n
  constructor
  · rintro ⟨hdefines, hdependsOn⟩
    rw [hdefines, hdependsOn] at hinterleaves
    have hnone : n.topAtoms.filterMap r.resolve? = [] := by
      generalize n.topAtoms.filterMap r.resolve? = found at hinterleaves
      cases hinterleaves
      rfl
    refine List.eq_nil_iff_forall_not_mem.mpr fun a ha => ?_
    obtain ⟨s, documentation, -, hresolve⟩ := h a ha
    have hnone := List.filterMap_eq_nil_iff.mp hnone a ha
    rw [hresolve] at hnone
    cases hnone
  · intro hnone
    rw [hnone] at hinterleaves
    generalize (r.collect n).defines = xs, (r.collect n).dependsOn = ys at hinterleaves
    cases hinterleaves
    exact ⟨rfl, rfl⟩

/-- A top-level node that is no rule is ignored if its kind is left out, and otherwise declares
something. -/
theorem ofNode_cases (r : SymbolRegistry) (k : Nat) {n : Node} (htop : n.IsTopLevel)
    (hrule : n.kind ≠ .rule) :
    n.IsLeftOut ∧ ofNode r k n = .ignored ∨
      ¬ n.IsLeftOut ∧ ∃ kind identity, ofNode r k n = .statement
        (.bare kind identity (r.collect n).defines (r.collect n).dependsOn n.location none) := by
  rcases htop with hkind | hkind | hkind | hkind | hkind | hkind | ⟨hkind, hname⟩ | ⟨hkind, hterm⟩
  case inl => exact absurd hkind hrule
  case inr.inl | inr.inr.inl =>
    refine .inr ⟨by simp [Node.IsLeftOut, hkind], ?_⟩
    simp only [ofNode, hkind]
    exact ⟨_, _, rfl⟩
  case inr.inr.inr.inl | inr.inr.inr.inr.inl | inr.inr.inr.inr.inr.inl =>
    refine .inl ⟨by simp [Node.IsLeftOut, hkind], ?_⟩
    simp only [ofNode, hkind]
  case inr.inr.inr.inr.inr.inr.inl =>
    obtain ⟨name, hname⟩ := Option.isSome_iff_exists.mp hname
    by_cases hempty : name = ""
    · have hshows : shownSignature? n = none := by simp [shownSignature?, hkind, hname, hempty]
      refine .inl ⟨by simp [Node.IsLeftOut, hkind, hname, hempty], ?_⟩
      simp only [ofNode, hkind, hshows]
    · have hshows : shownSignature? n = some (Symbol.signatureOf name (n.arity.getD 0)) := by
        simp [shownSignature?, hkind, hname, String.isEmpty_iff, hempty]
      refine .inr ⟨by simp [Node.IsLeftOut, hkind, hname, hempty], ?_⟩
      simp only [ofNode, hkind, hshows]
      exact ⟨_, _, rfl⟩
  case inr.inr.inr.inr.inr.inr.inr =>
    obtain ⟨term, hterm⟩ := Option.isSome_iff_exists.mp hterm
    obtain ⟨signature, hshows⟩ : ∃ signature, shownSignature? n = some signature := by
      simp [shownSignature?, hkind, hterm]
    refine .inr ⟨by simp [Node.IsLeftOut, hkind], ?_⟩
    simp only [ofNode, hkind, hshows]
    exact ⟨_, _, rfl⟩

/-- A classified rule is a diagnostic if no predicate was found, and a statement with the predicates
otherwise. -/
theorem ofRule_cases (k : Nat) (sets : SymbolSets) (l : Location) :
    (sets.defines = [] ∧ sets.dependsOn = []) ∧ ofRule k sets l = .unclassifiable l ∨
      ¬ (sets.defines = [] ∧ sets.dependsOn = []) ∧
        ∃ s, ofRule k sets l = .statement s ∧ s.defines = sets.defines ∧
          s.dependsOn = sets.dependsOn := by
  obtain ⟨defines, dependsOn⟩ := sets
  cases defines with
  | nil =>
    cases dependsOn with
    | nil => exact .inl ⟨⟨rfl, rfl⟩, rfl⟩
    | cons next more => exact .inr ⟨by simp, _, rfl, rfl, rfl⟩
  | cons first rest =>
    cases dependsOn with
    | nil => exact .inr ⟨by simp, _, rfl, rfl, rfl⟩
    | cons next more => exact .inr ⟨by simp, _, rfl, rfl, rfl⟩

end Classification

/-- What a top-level node becomes in a program. -/
inductive Yield where
  | own (s : Statement)
  | external (s : Statement)
  | diagnostic (d : Diagnostic)
  | nothing

namespace Yield

/-- The statement of the root file. -/
def own? : Yield → Option Statement
  | own s => some s
  | _ => none

/-- The statement of an included file. -/
def external? : Yield → Option Statement
  | external s => some s
  | _ => none

/-- The diagnostic. -/
def diagnostic? : Yield → Option Diagnostic
  | diagnostic d => some d
  | _ => none

end Yield

namespace Program

/-- A statement of a program presents a node: it has its place and its predicates, it comes from one
of the source files, and it stands below the section directive of that file that heads it. -/
structure Presents (p : Program) (n : Node) (s : Statement) : Prop where
  location : s.location = n.location
  sourceFile : s.sourceFile = n.location.file
  defines : s.defines = (p.symbols.collect n).defines
  dependsOn : s.dependsOn = (p.symbols.collect n).dependsOn
  known : ∃ f ∈ p.sources, f.path = s.sourceFile
  heading : ∀ d, s.heading = some d → d.sourceFile = s.sourceFile ∧
    d.lineNumber + 1 < s.location.line

/-- What a node has to become in a program: a diagnostic exactly if it is a rule without predicates,
nothing exactly if its kind is left out, and otherwise a statement, own or external by its file. -/
inductive Yields (p : Program) (n : Node) : Yield → Prop
  | own {s : Statement} (hvoid : ¬ n.IsVoidRule) (hout : ¬ n.IsLeftOut)
      (hfile : n.location.isIn p.path = true) (hs : p.Presents n s) : Yields p n (.own s)
  | external {s : Statement} (hvoid : ¬ n.IsVoidRule) (hout : ¬ n.IsLeftOut)
      (hfile : n.location.isIn p.path = false) (hs : p.Presents n s) : Yields p n (.external s)
  | diagnostic (hvoid : n.IsVoidRule) : Yields p n
      (.diagnostic ⟨n.location, "statement neither defines nor depends on any predicate"⟩)
  | nothing (hout : n.IsLeftOut) : Yields p n .nothing

/-- What is made of a classified node. -/
def yieldOf (root : Path) (annotate : Statement → Statement) : Classification → Yield
  | .ignored => .nothing
  | .unclassifiable location =>
    .diagnostic ⟨location, "statement neither defines nor depends on any predicate"⟩
  | .statement s => if (annotate s).isIn root then .own (annotate s) else .external (annotate s)

section Parts

variable (root : Path) (annotate : Statement → Statement) (classified : List Classification)

/-- A statement is own or external as its place is in the root file. -/
theorem parts_yieldOf (c : Classification) :
    (yieldOf root annotate c).own? = (c.statement?.map annotate).filter (fun s => s.isIn root) ∧
      (yieldOf root annotate c).external? =
        (c.statement?.map annotate).filter (fun s => !s.isIn root) := by
  cases c with
  | statement s =>
    cases h : (annotate s).isIn root <;>
      simp [Classification.statement?, yieldOf, Option.filter, Yield.own?, Yield.external?, h]
  | _ => exact ⟨rfl, rfl⟩

/-- The statements with a property are the parts of the yields that have it. -/
theorem statements_of_yields {keep : Statement → Bool} {part? : Yield → Option Statement}
    (hpart : ∀ c, part? (yieldOf root annotate c) = (c.statement?.map annotate).filter keep) :
    ((classified.filterMap Classification.statement?).map annotate).filter keep =
      (classified.map (yieldOf root annotate)).filterMap part? := by
  rw [List.map_filterMap, List.filter_filterMap, List.filterMap_map]
  exact List.filterMap_congr fun c _ => (hpart c).symm

theorem diagnostics_of_yields : classified.filterMap diagnosticOf? =
    (classified.map (yieldOf root annotate)).filterMap Yield.diagnostic? := by
  rw [List.filterMap_map]
  refine List.filterMap_congr fun c _ => ?_
  cases c with
  | statement s => cases h : (annotate s).isIn root <;>
      simp [diagnosticOf?, yieldOf, Yield.diagnostic?, h]
  | _ => rfl

end Parts

variable {config : AnalysisConfig} {extractor : DirectiveExtractor}

/-- With usable markers there is a program of what was read, and its
lists are what its nodes yield. -/
theorem exists_ofSource (source : ParsedSource)
    (hextractor : DirectiveExtractor.new config.directiveMarker config.descriptionMarker =
      .ok extractor) :
    ∃ p directives yields, ofSource source config = .ok p ∧ p.path = source.root ∧
      p.sources = source.files ∧
      p.symbols = .extract source.nodes source.root directives config.predicateDirective ∧
      yields = (Classification.ofNodes p.symbols source.nodes).map
        (yieldOf source.root (annotateWith (annotators extractor config source.files))) ∧
      p.statements = yields.filterMap Yield.own? ∧ p.external = yields.filterMap Yield.external? ∧
      p.diagnostics = yields.filterMap Yield.diagnostic? := by
  simp only [ofSource, hextractor]
  refine ⟨_, _, _, rfl, rfl, rfl, rfl, rfl, ?_, ?_, diagnostics_of_yields _ _ _⟩
  · rw [List.partition_eq_filter_filter]
    exact statements_of_yields _ _ _ fun c => (parts_yieldOf _ _ c).1
  · rw [List.partition_eq_filter_filter]
    exact statements_of_yields _ _ _ fun c => (parts_yieldOf _ _ c).2

/-- A heading is a directive of the annotated file that stands above the statement. -/
theorem heading_annotatorOf {f : SourceFile} {line : Nat} {d : Directive}
    (h : (annotatorOf extractor config f).headingFor line = some d) :
    d.sourceFile = f.path ∧ d.lineNumber + 1 < line := by
  constructor
  · rw [annotatorOf, extractor.extract_moveTo f.path f.path, Annotator.headingFor_moveTo] at h
    obtain ⟨e, -, rfl⟩ := Option.map_eq_some_iff.mp h
    rfl
  · have hmem := List.mem_of_getLast? h
    have hprecedes := List.mem_takeWhile_imp hmem
    exact of_decide_eq_true hprecedes

section Nodes

variable {p : Program} {n : Node} {k : Nat} {s : Statement} {f : SourceFile}

theorem presents_annotate (hf : f ∈ p.sources) (hfile : n.location.file = f.path)
    (hs : Classification.ofNode p.symbols k n = .statement s)
    (hdefines : s.defines = (p.symbols.collect n).defines)
    (hdependsOn : s.dependsOn = (p.symbols.collect n).dependsOn) :
    p.Presents n ((annotatorOf extractor config f).annotate s) := by
  have hat := Classification.ofNode_at p.symbols k n
  rw [hs] at hat
  cases hat with
  | statement hlocation hsource =>
    refine ⟨hlocation, hsource, hdefines, hdependsOn, ⟨f, hf, hfile.symm.trans hsource.symm⟩, ?_⟩
    intro d hd
    obtain ⟨hpath, hline⟩ := heading_annotatorOf hd
    exact ⟨hpath.trans (hfile.symm.trans hsource.symm), hline⟩

theorem yields_of_statement
    (hdistinct : p.sources.Pairwise fun f g => f.path.components ≠ g.path.components)
    (hf : f ∈ p.sources) (hfile : n.location.file = f.path)
    (hs : Classification.ofNode p.symbols k n = .statement s)
    (hdefines : s.defines = (p.symbols.collect n).defines)
    (hdependsOn : s.dependsOn = (p.symbols.collect n).dependsOn)
    (hvoid : ¬ n.IsVoidRule) (hout : ¬ n.IsLeftOut) :
    p.Yields n (yieldOf p.path (annotateWith (annotators extractor config p.sources))
      (Classification.ofNode p.symbols k n)) := by
  have hpresents : p.Presents n ((annotatorOf extractor config f).annotate s) :=
    presents_annotate hf hfile hs hdefines hdependsOn
  have hin : s.isIn f.path = true := by
    have hsource : s.sourceFile = n.location.file := hpresents.sourceFile
    rw [Statement.isIn, hsource, hfile]
    exact Path.beq_iff.mpr rfl
  have hroot : ((annotatorOf extractor config f).annotate s).isIn p.path =
      n.location.isIn p.path := by
    rw [Statement.isIn, hpresents.sourceFile]
    rfl
  rw [hs, yieldOf, annotateWith_of_mem hdistinct hf extractor hin, hroot]
  cases hown : n.location.isIn p.path with
  | true => exact .own hvoid hout hown hpresents
  | false => exact .external hvoid hout hown hpresents

theorem yields_of_rule
    (hdistinct : p.sources.Pairwise fun f g => f.path.components ≠ g.path.components)
    (hf : f ∈ p.sources) (hfile : n.location.file = f.path) (hfaithful : p.symbols.Faithful n)
    (hkind : n.kind = .rule) :
    p.Yields n (yieldOf p.path (annotateWith (annotators extractor config p.sources))
      (Classification.ofNode p.symbols k n)) := by
  have hclass : Classification.ofNode p.symbols k n =
      .ofRule k (p.symbols.collect n) n.location := by
    simp only [Classification.ofNode, hkind]
  have hnone := Classification.collect_eq_nil_iff hfaithful
  rcases Classification.ofRule_cases k (p.symbols.collect n) n.location with
    ⟨hempty, hrule⟩ | ⟨hsome, s, hrule, hd, hu⟩
  · rw [hclass, hrule]
    exact .diagnostic ⟨hkind, hnone.mp hempty⟩
  · refine yields_of_statement hdistinct hf hfile (hclass.trans hrule) hd hu ?_ ?_
    · rintro ⟨-, hvoid⟩
      exact hsome (hnone.mpr hvoid)
    · simp [Node.IsLeftOut, hkind]

/-- Every top-level node yields what it has to. -/
theorem yields_of_node
    (hdistinct : p.sources.Pairwise fun f g => f.path.components ≠ g.path.components)
    (hf : f ∈ p.sources) (hfile : n.location.file = f.path) (hfaithful : p.symbols.Faithful n)
    (htop : n.IsTopLevel) :
    p.Yields n (yieldOf p.path (annotateWith (annotators extractor config p.sources))
      (Classification.ofNode p.symbols k n)) := by
  by_cases hrule : n.kind = .rule
  · exact yields_of_rule hdistinct hf hfile hfaithful hrule
  · rcases Classification.ofNode_cases p.symbols k htop hrule with
      ⟨hout, hclass⟩ | ⟨hout, _, _, hclass⟩
    · rw [hclass]
      exact .nothing hout
    · have hvoid : ¬ n.IsVoidRule := fun hvoid => hrule hvoid.1
      exact yields_of_statement hdistinct hf hfile hclass rfl rfl hvoid hout

end Nodes

/-- Every statement is of one of six kinds. -/
theorem sum_ofKind (p : Program) : (p.ofKind .rule).length + (p.ofKind .fact).length +
    (p.ofKind .constraint).length + (p.ofKind .definition).length + (p.ofKind .input).length +
    (p.ofKind .output).length = p.statements.length := by
  simp only [ofKind]
  induction p.statements with
  | nil => rfl
  | cons s rest ih =>
    simp only [List.filter_cons, List.length_cons, ← ih]
    cases s.kind <;> simp <;> omega

/-- A program accounts for what was read: every node yields one thing, in the order of the nodes,
and the summary counts what there is. -/
structure Accounts (p : Program) (source : ParsedSource) : Prop where
  path : p.path = source.root
  sources : p.sources = source.files
  yields : ∃ yields, List.Forall₂ p.Yields source.nodes yields ∧
    p.statements = yields.filterMap Yield.own? ∧ p.external = yields.filterMap Yield.external? ∧
    p.diagnostics = yields.filterMap Yield.diagnostic?
  counted : (ReportSummary.ofProgram p).rules + (ReportSummary.ofProgram p).facts +
    (ReportSummary.ofProgram p).constraints + (ReportSummary.ofProgram p).definitions +
    (ReportSummary.ofProgram p).inputs + (ReportSummary.ofProgram p).outputs = p.statements.length
  others : (ReportSummary.ofProgram p).external = p.external.length ∧
    (ReportSummary.ofProgram p).diagnostics = p.diagnostics.length

/-- Each of the nodes that were read yields what it has to. -/
theorem yields_of_readText {r : ProgramReader} {root : Path} {text : String} {source : ParsedSource}
    (h : r.readText root text = .ok source) {p : Program} {directives : DirectiveIndex}
    (hroot : p.path = source.root) (hsources : p.sources = source.files)
    (hsymbols : p.symbols =
      .extract source.nodes source.root directives config.predicateDirective) :
    List.Forall₂ p.Yields source.nodes ((Classification.ofNodes p.symbols source.nodes).map
      (yieldOf source.root (annotateWith (annotators extractor config source.files)))) := by
  obtain ⟨_, _, hspliced⟩ := ProgramReader.exists_spliced h
  obtain ⟨numbered, hnumbered, hclassified⟩ :=
    Classification.ofNodesFrom_numbered p.symbols 0 source.nodes
  have hyields (k : Nat) {n : Node} (hn : n ∈ source.nodes) :
      p.Yields n (yieldOf p.path (annotateWith (annotators extractor config p.sources))
        (Classification.ofNode p.symbols k n)) := by
    obtain ⟨f, hf, hfile⟩ := hspliced.located n hn
    obtain ⟨t, items, -, -, hparse, hitems, -⟩ := hspliced.statements f hf
    have hin : n ∈ source.nodes.filter fun n => n.location.isIn f.path := by
      refine List.mem_filter.mpr ⟨hn, ?_⟩
      rw [Location.isIn_iff, hfile]
    have hfaithful : p.symbols.Faithful n := by
      rw [hsymbols, hspliced.rooted]
      exact SymbolRegistry.faithful_of_readText h directives config.predicateDirective hf hin
    rw [hitems] at hin
    have htop := Surface.isTopLevel_of_parseItems hparse hin
    rw [← hsources] at hf
    exact yields_of_node (hsources ▸ hspliced.distinct) hf hfile hfaithful htop
  rw [Classification.ofNodes, hclassified, List.map_map, ← hroot, ← hsources]
  nth_rewrite 1 [← hnumbered]
  rw [List.forall₂_map_left_iff, List.forall₂_map_right_iff]
  refine List.forall₂_same.mpr fun x hx => ?_
  have hmem : x.2 ∈ source.nodes := by
    rw [← hnumbered]
    exact List.mem_map_of_mem hx
  exact hyields x.1 hmem

/-- With usable markers there is a program of everything that a reader returns, and it accounts for
every node exactly once. -/
theorem ofSource_accounts {r : ProgramReader} {root : Path} {source : ParsedSource}
    (hsource : (∃ text, r.readText root text = .ok source) ∨ r.load root = .ok source)
    (hextractor : DirectiveExtractor.new config.directiveMarker config.descriptionMarker =
      .ok extractor) :
    ∃ p, ofSource source config = .ok p ∧ p.path = root ∧ p.Accounts source := by
  have hread : ∃ text, r.readText root text = .ok source := by
    rcases hsource with hread | hload
    · exact hread
    · obtain ⟨-, text, -, hread⟩ := ProgramReader.load_eq_ok_iff.mp hload
      exact ⟨text, hread⟩
  obtain ⟨text, hread⟩ := hread
  obtain ⟨p, directives, yields, hp, hpath, hsources, hsymbols, rfl, hown, hexternal,
    hdiagnostics⟩ := exists_ofSource source hextractor
  obtain ⟨_, _, hspliced⟩ := ProgramReader.exists_spliced hread
  refine ⟨p, hp, hpath.trans hspliced.rooted, hpath, hsources, ?_, sum_ofKind p, rfl, rfl⟩
  exact ⟨_, yields_of_readText hread hpath hsources hsymbols, hown, hexternal, hdiagnostics⟩

/-- A fact, a rule without predicates, a rule and the statement that shows nothing by itself are all
accounted for. -/
theorem ofSource_accounts_of_mixture :
    ∃ source p, (ProgramReader.mk (.ofFiles []) 100).readText ⟨"p.lp"⟩
        "a. :- 1 > 2. b :- a. #show." = .ok source ∧
      source.nodes.map (·.kind) = [.rule, .rule, .rule, .showSignature] ∧
      ofSource source {} = .ok p ∧ p.path = ⟨"p.lp"⟩ ∧ p.Accounts source := by
  have htext : (parseItems ⟨"p.lp"⟩ "a. :- 1 > 2. b :- a. #show.").toOption.map (fun items =>
      (targetsOf items, (statementsOf items).map (·.kind))) =
        some ([], [.rule, .rule, .rule, .showSignature]) := by
    decide +kernel
  cases hparse : parseItems ⟨"p.lp"⟩ "a. :- 1 > 2. b :- a. #show." with
  | error e => simp [hparse, Except.toOption] at htext
  | ok items =>
    simp only [hparse, Except.toOption, Option.map_some, Option.some.injEq, Prod.mk.injEq] at htext
    obtain ⟨hnone, hkinds⟩ := htext
    have hread := ProgramReader.readText_of_targetsOf_eq_nil ⟨.ofFiles [], 100⟩ hparse hnone
    have hmarkers : DirectiveExtractor.new ({} : AnalysisConfig).directiveMarker
        ({} : AnalysisConfig).descriptionMarker = .ok ⟨_, _⟩ := rfl
    obtain ⟨p, hp, hpath, haccounts⟩ := ofSource_accounts (.inl ⟨_, hread⟩) hmarkers
    exact ⟨_, p, hread, hkinds, hp, hpath, haccounts⟩

end Program
end AspAtlas
