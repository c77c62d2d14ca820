import AspAtlas.Program.Decoration
import AspAtlas.Proofs.Program.Accounting
import AspAtlas.Proofs.Statement.Kinds
/-!
The statements of a program, however often it was qualified. They are those that its nodes were
classified as, changed in nothing but their decoration; each step of qualifying keeps that.
-/
namespace AspAtlas

/-- A change of statements in comments, heading, qualifier and source text at most. -/
structure Statement.Decorates (f : Statement → Statement) : Prop where
  kind : ∀ s, (f s).kind = s.kind
  identity : ∀ s, (f s).identity = s.identity
  defines : ∀ s, (f s).defines = s.defines
  dependsOn : ∀ s, (f s).dependsOn = s.dependsOn
  location : ∀ s, (f s).location = s.location
  sourceFile : ∀ s, (f s).sourceFile = s.sourceFile
  number : ∀ s, (f s).number = s.number

namespace Statement.Decorates

variable {f g : Statement → Statement}

theorem comp (hf : Decorates f) (hg : Decorates g) : Decorates (f ∘ g) where
  kind s := (hf.kind (g s)).trans (hg.kind s)
  identity s := (hf.identity (g s)).trans (hg.identity s)
  defines s := (hf.defines (g s)).trans (hg.defines s)
  dependsOn s := (hf.dependsOn (g s)).trans (hg.dependsOn s)
  location s := (hf.location (g s)).trans (hg.location s)
  sourceFile s := (hf.sourceFile (g s)).trans (hg.sourceFile s)
  number s := (hf.number (g s)).trans (hg.number s)

theorem classified (hf : Decorates f) {s : Statement} (hs : s.Classified) : (f s).Classified := by
  constructor
  · rw [hf.kind, hf.dependsOn]
    exact hs.fact
  · rw [hf.kind, hf.defines, hf.number, hf.identity]
    exact hs.constraint
  · rw [hf.defines, hf.dependsOn]
    exact hs.symbols
  · rw [hf.kind, hf.identity]
    exact hs.declared

theorem isIn (hf : Decorates f) (s : Statement) (file : Path) : (f s).isIn file = s.isIn file := by
  rw [Statement.isIn, hf.sourceFile]
  rfl

end Statement.Decorates

namespace Yield

/-- The statement that a node has become, of the root file or of another. -/
def statement? : Yield → Option Statement
  | own s | external s => some s
  | _ => none

/-- The yield with its statement changed. -/
def map (f : Statement → Statement) : Yield → Yield
  | own s => own (f s)
  | external s => external (f s)
  | other => other

theorem own?_map (f : Statement → Statement) (y : Yield) : (y.map f).own? = y.own?.map f := by
  cases y <;> rfl

theorem external?_map (f : Statement → Statement) (y : Yield) :
    (y.map f).external? = y.external?.map f := by
  cases y <;> rfl

theorem diagnostic?_map (f : Statement → Statement) (y : Yield) :
    (y.map f).diagnostic? = y.diagnostic? := by
  cases y <;> rfl

theorem statement?_eq_some {y : Yield} {s : Statement} :
    y.statement? = some s ↔ y.own? = some s ∨ y.external? = some s := by
  cases y <;> simp [statement?, own?, external?]

end Yield

namespace Program

theorem decorates_annotateWith (annotators : List (Path × Annotator)) :
    Statement.Decorates (annotateWith annotators) := by
  constructor <;> intro s <;> rw [annotateWith] <;> split <;> rfl

theorem decorates_qualifier (sourceRoot : Path) :
    Statement.Decorates fun s => { s with qualifier := s.sourceFile.qualifier sourceRoot } := by
  constructor <;> intro s <;> rfl

/-- What the nodes that were read become in a program, with some decoration of the statements. -/
def yields (p : Program) (source : ParsedSource) (decorate : Statement → Statement) : List Yield :=
  (Classification.ofNodes p.symbols source.nodes).map (yieldOf p.path decorate)

/-- A program lists what the nodes that were read are classified as, with some decoration. -/
structure Lists (p : Program) (source : ParsedSource)
    (decorate : Statement → Statement) : Prop where
  path : p.path = source.root
  found : ∀ atom q, p.symbols.resolve? atom = some q → Symbol.IsSignature q.signature
  decorates : Statement.Decorates decorate
  statements : p.statements = (p.yields source decorate).filterMap Yield.own?
  external : p.external = (p.yields source decorate).filterMap Yield.external?
  diagnostics : p.diagnostics = (p.yields source decorate).filterMap Yield.diagnostic?

variable {source : ParsedSource} {config : AnalysisConfig} {p : Program}
  {decorate f : Statement → Statement}

theorem exists_lists_of_ofSource (h : ofSource source config = .ok p) :
    ∃ decorate, p.Lists source decorate := by
  obtain ⟨extractor, -, hextractor, -⟩ := ofSource_spec h
  obtain ⟨q, directives, _, hq, hpath, -, hsymbols, rfl, hown, hexternal, hdiagnostics⟩ :=
    exists_ofSource source hextractor
  rw [h] at hq
  cases hq
  rw [← hpath] at hown hexternal hdiagnostics
  refine ⟨_, hpath, ?_, decorates_annotateWith (annotators extractor config source.files), hown,
    hexternal, hdiagnostics⟩
  intro atom q hresolve
  rw [hsymbols] at hresolve
  exact SymbolRegistry.isSignature_of_resolve? hresolve

/-- Decorating once more leaves every statement on its side. -/
theorem yieldOf_comp (hf : Statement.Decorates f) (root : Path) (c : Classification) :
    yieldOf root (f ∘ decorate) c = (yieldOf root decorate c).map f := by
  cases c with
  | statement s =>
    simp only [yieldOf, Function.comp_apply, hf.isIn]
    cases (decorate s).isIn root <;> rfl
  | _ => rfl

theorem statement?_yieldOf (root : Path) (c : Classification) :
    (yieldOf root decorate c).statement? = c.statement?.map decorate := by
  cases c with
  | statement s =>
    simp only [yieldOf]
    cases (decorate s).isIn root <;> rfl
  | _ => rfl

namespace Lists

/-- Decorating the statements of a program adds to the decoration. -/
theorem mapStatements (h : p.Lists source decorate) (hf : Statement.Decorates f) :
    (p.mapStatements f).Lists source (f ∘ decorate) := by
  have hyields : (p.mapStatements f).yields source (f ∘ decorate) =
      (p.yields source decorate).map (Yield.map f) := by
    rw [yields, yields, List.map_map]
    exact List.map_congr_left fun c _ => yieldOf_comp hf _ c
  refine ⟨h.path, h.found, hf.comp h.decorates, ?_, ?_, ?_⟩
  · rw [hyields, List.filterMap_map, Program.mapStatements, h.statements, List.map_filterMap]
    exact List.filterMap_congr fun y _ => (Yield.own?_map _ y).symm
  · rw [hyields, List.filterMap_map, Program.mapStatements, h.external, List.map_filterMap]
    exact List.filterMap_congr fun y _ => (Yield.external?_map _ y).symm
  · rw [hyields, List.filterMap_map, Program.mapStatements, h.diagnostics]
    exact List.filterMap_congr fun y _ => (Yield.diagnostic?_map _ y).symm

theorem qualify (h : p.Lists source decorate) (sourceRoot : Path) :
    (p.qualify sourceRoot).Lists source
      ((fun s => { s with qualifier := s.sourceFile.qualifier sourceRoot }) ∘ decorate) :=
  h.mapStatements (decorates_qualifier sourceRoot)

theorem exists_foldl_qualify (h : p.Lists source decorate) (roots : List Path) :
    ∃ decorate, (roots.foldl Program.qualify p).Lists source decorate := by
  induction roots generalizing p decorate with
  | nil => exact ⟨decorate, h⟩
  | cons root roots ih => exact ih (h.qualify root)

theorem mem_allStatements (h : p.Lists source decorate) {s : Statement} :
    s ∈ p.allStatements ↔ ∃ y ∈ p.yields source decorate, y.statement? = some s := by
  simp only [allStatements, h.statements, h.external, List.mem_append, List.mem_filterMap,
    Yield.statement?_eq_some, and_or_left, exists_or]

/-- Every statement of a program is as classification leaves it. -/
theorem classified_of_mem (h : p.Lists source decorate) {s : Statement} (hs : s ∈ p.allStatements) :
    s.Classified := by
  obtain ⟨y, hy, hs⟩ := h.mem_allStatements.mp hs
  obtain ⟨c, hc, rfl⟩ := List.mem_map.mp hy
  rw [statement?_yieldOf] at hs
  obtain ⟨bare, hbare, rfl⟩ := Option.map_eq_some_iff.mp hs
  obtain ⟨k, n, rfl⟩ := Classification.exists_ofNode_of_mem hc
  apply h.decorates.classified
  exact Classification.classified_of_ofNode h.found (Classification.statement?_eq_some_iff.mp hbare)

end Lists
end Program
end AspAtlas
