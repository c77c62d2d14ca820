import AspAtlas.Program.Basic
import AspAtlas.Proofs.Statement.Likeness
import AspAtlas.Proofs.Symbol.Occurrences
/-!
What a program says about one of its files. The statements and diagnostics that stand in
the file come from the nodes of the file alone; the other files take part in the
numbering of constraints only.
-/
namespace AspAtlas

namespace SymbolRegistry

/-- The registry of the root file is faithful to all nodes that were read: an atom of the root file
is the only one at its place, and for an atom of another file nothing is registered. -/
theorem faithful_of_readText {r : ProgramReader} {root : Path} {text : String}
    {source : ParsedSource}
    (h : r.readText root text = .ok source) (directives : DirectiveIndex) (directiveName : String)
    {f : SourceFile} (hf : f ∈ source.files) {n : Node}
    (hn : n ∈ source.nodes.filter fun n => n.location.isIn f.path) :
    (extract source.nodes root directives directiveName).Faithful n := by
  intro a ha
  obtain ⟨_, _, hrow⟩ := row_of_readText h hf
  have hsome := isSome_of_row hrow a (List.mem_flatMap.mpr ⟨n, hn, ha⟩)
  obtain ⟨fresh, hfresh⟩ := Option.isSome_iff_exists.mp hsome
  rw [extract_eq]
  by_cases hown : f.path.components = root.components
  · have hmem : a ∈ (source.nodes.filter fun n => n.location.isIn root).flatMap Node.topAtoms := by
      obtain ⟨hn, hfile⟩ := List.mem_filter.mp hn
      have hin : n.location.isIn root = true := by
        rw [Location.isIn_iff] at hfile ⊢
        exact hfile.trans hown
      exact List.mem_flatMap.mpr ⟨n, List.mem_filter.mpr ⟨hn, hin⟩, ha⟩
    obtain ⟨_, _, hrowroot⟩ := row_of_root h
    refine ⟨fresh, directives.description? directiveName fresh.name, hfresh, ?_⟩
    rw [resolve?_of_row hrowroot hmem, hfresh]
    rfl
  · have habsent : ∀ s ∈ (source.nodes.filter fun n => n.location.isIn root).flatMap
        (contribution directives directiveName), compare s.key fresh.key ≠ .eq := by
      intro s hs he
      have hsame : s.location.file.components = fresh.location.file.components :=
        (OccurrenceKey.compare_eq_iff.mp he).2.2.2
      rw [file_of_contribution h hs, file_of_readText h hf hn ha hfresh] at hsame
      exact hown hsame.symm
    refine ⟨fresh, fresh.documentation, hfresh, ?_⟩
    rw [resolve?_ofList, hfresh, Option.map_some, lastAt_eq_none habsent]
    rfl

end SymbolRegistry

/-- Every node of a program is classified on its own, under some number for the next constraint. -/
theorem Classification.ofNodesFrom_numbered (r : SymbolRegistry) (k : Nat) (nodes : List Node) :
    ∃ numbered : List (Nat × Node), numbered.map Prod.snd = nodes ∧
      ofNodesFrom r k nodes = numbered.map fun x => ofNode r x.1 x.2 := by
  induction nodes generalizing k with
  | nil => exact ⟨[], rfl, rfl⟩
  | cons n rest ih =>
    obtain ⟨numbered, hrest, hall⟩ := ih (if (ofNode r k n).isConstraint then k + 1 else k)
    refine ⟨(k, n) :: numbered, by rw [List.map_cons, hrest], ?_⟩
    simp only [ofNodesFrom, hall, List.map_cons]

/-- What a node is classified as stands where the node stands. -/
inductive Classification.At (l : Location) : Classification → Prop
  | ignored : At l .ignored
  | unclassifiable : At l (.unclassifiable l)
  | statement {s : Statement} (hlocation : s.location = l) (hfile : s.sourceFile = l.file) :
      At l (.statement s)

theorem Classification.ofRule_at (k : Nat) (sets : SymbolSets) (l : Location) :
    At l (ofRule k sets l) := by
  obtain ⟨defines, dependsOn⟩ := sets
  cases defines with
  | nil =>
    cases dependsOn with
    | nil => exact .unclassifiable
    | cons next more => exact .statement rfl rfl
  | cons first rest =>
    cases dependsOn with
    | nil => exact .statement rfl rfl
    | cons next more => exact .statement rfl rfl

theorem Classification.ofNode_at (r : SymbolRegistry) (k : Nat) (n : Node) :
    At n.location (ofNode r k n) := by
  simp only [ofNode]
  cases n.kind with
  | rule => exact ofRule_at k (r.collect n) n.location
  | defined | definition => exact .statement rfl rfl
  | showSignature | showTerm =>
    cases shownSignature? n with
    | none => exact .ignored
    | some signature => exact .statement rfl rfl
  | _ => exact .ignored

theorem Classification.statement?_eq_some_iff {c : Classification} {s : Statement} :
    c.statement? = some s ↔ c = .statement s := by
  cases c <;> simp [statement?]

theorem Classification.exists_ofNode_of_mem {r : SymbolRegistry} {nodes : List Node}
    {c : Classification} (h : c ∈ ofNodes r nodes) : ∃ k n, c = ofNode r k n := by
  obtain ⟨numbered, -, hclassified⟩ := ofNodesFrom_numbered r 0 nodes
  rw [ofNodes, hclassified] at h
  obtain ⟨x, -, rfl⟩ := List.mem_map.mp h
  exact ⟨x.1, x.2, rfl⟩

theorem Classification.file_of_statement? {r : SymbolRegistry} {k : Nat} {n : Node} {s : Statement}
    (h : (ofNode r k n).statement? = some s) : s.sourceFile = n.location.file := by
  have hat := ofNode_at r k n
  rw [statement?_eq_some_iff.mp h] at hat
  cases hat with
  | statement _ hfile => exact hfile

namespace Program

theorem location_of_diagnosticOf? {r : SymbolRegistry} {k : Nat} {n : Node} {d : Diagnostic}
    (h : diagnosticOf? (Classification.ofNode r k n) = some d) : d.location = n.location := by
  have hat := Classification.ofNode_at r k n
  cases hc : Classification.ofNode r k n with
  | ignored | statement => simp [hc, diagnosticOf?] at h
  | unclassifiable l =>
    rw [hc] at hat h
    cases h
    cases hat
    rfl

variable {config : AnalysisConfig}

/-- The annotator for the statements of a file. -/
def annotatorOf (extractor : DirectiveExtractor) (config : AnalysisConfig) (f : SourceFile) :
    Annotator :=
  .new (extractor.extract f.lines f.path) config.sectionDirective f.lines config.commentMarker

/-- How a program documents the nodes of one of its files, each with a number for the next
constraint. -/
structure Documents (p : Program) (extractor : DirectiveExtractor) (config : AnalysisConfig)
    (f : SourceFile) (numbered : List (Nat × Node)) : Prop where
  faithful : ∀ x ∈ numbered, p.symbols.Faithful x.2
  statements : (p.allStatements.filter fun s => s.isIn f.path) =
    numbered.filterMap fun x => (Classification.ofNode p.symbols x.1 x.2).statement?.map
      (annotatorOf extractor config f).annotate
  diagnostics : (p.diagnostics.filter fun d => d.location.isIn f.path) =
    numbered.filterMap fun x => diagnosticOf? (Classification.ofNode p.symbols x.1 x.2)

/-- Of files that all have different paths, a search finds the one that was asked for. -/
theorem find?_path {files : List SourceFile}
    (hdistinct : files.Pairwise fun f g => f.path.components ≠ g.path.components) {f : SourceFile}
    (hf : f ∈ files) {q : Path} (hq : f.path.components = q.components) :
    (files.find? fun g => g.path == q) = some f := by
  induction files with
  | nil => cases hf
  | cons g rest ih =>
    obtain ⟨hfirst, hrest⟩ := List.pairwise_cons.mp hdistinct
    rw [List.find?_cons]
    rcases List.mem_cons.mp hf with rfl | hf
    · have hsame : (f.path == q) = true := Path.beq_iff.mpr hq
      rw [hsame]
    · have hother : (g.path == q) = false := by
        rw [Bool.eq_false_iff]
        intro he
        exact hfirst f hf ((Path.beq_iff.mp he).trans hq.symm)
      rw [hother]
      exact ih hrest hf

/-- A statement is annotated from the file that it stands in. -/
theorem annotateWith_of_mem {files : List SourceFile}
    (hdistinct : files.Pairwise fun f g => f.path.components ≠ g.path.components) {f : SourceFile}
    (hf : f ∈ files) (extractor : DirectiveExtractor) {s : Statement} (hs : s.isIn f.path = true) :
    annotateWith (annotators extractor config files) s =
      (annotatorOf extractor config f).annotate s := by
  have hreverse : files.reverse.Pairwise fun f g => f.path.components ≠ g.path.components := by
    rw [List.pairwise_reverse]
    exact hdistinct.imp fun hne he => hne he.symm
  have hfind := find?_path hreverse (List.mem_reverse.mpr hf) (Path.beq_iff.mp hs).symm
  simp only [annotateWith, annotators, List.find?_map, Function.comp_def, hfind, Option.map_some]
  rfl

/-- Keeping own and external statements apart loses none that stand in a file. -/
theorem filter_partition (statements : List Statement) (root q : Path) :
    (((statements.partition fun s => s.isIn root).1 ++
      (statements.partition fun s => s.isIn root).2).filter fun s => s.isIn q) =
      statements.filter fun s => s.isIn q := by
  have hroot (s : Statement) (hs : s.isIn q = true) : s.isIn root = (root == q) := by
    rw [Statement.isIn, Path.beq_iff] at hs
    rw [Bool.eq_iff_iff, Statement.isIn, Path.beq_iff, Path.beq_iff, hs, eq_comm]
  have hkeep (keep : Bool → Bool) : statements.filter (fun s => s.isIn q && keep (s.isIn root)) =
      statements.filter fun s => s.isIn q && keep (root == q) := by
    refine List.filter_congr fun s _ => ?_
    cases hs : s.isIn q with
    | false => rfl
    | true => rw [hroot s hs]
  have hown := hkeep id
  have hexternal := hkeep not
  rw [List.partition_eq_filter_filter, List.filter_append, List.filter_filter, List.filter_filter]
  simp only [id_eq] at hown
  simp only [Function.comp_def, hown, hexternal]
  cases root == q <;> simp

/-- The statements of a classification, annotated from the files that were read. -/
def annotated (extractor : DirectiveExtractor) (config : AnalysisConfig) (files : List SourceFile)
    (classified : List Classification) : List Statement :=
  (classified.filterMap Classification.statement?).map
    (annotateWith (annotators extractor config files))

/-- What a program consists of, in terms of what was read. -/
theorem ofSource_spec {source : ParsedSource} {p : Program} (h : ofSource source config = .ok p) :
    ∃ extractor directives,
      DirectiveExtractor.new config.directiveMarker config.descriptionMarker = .ok extractor ∧
      p.symbols = .extract source.nodes source.root directives config.predicateDirective ∧
      p.sources = source.files ∧
      (∀ q, (p.allStatements.filter fun s => s.isIn q) =
        (annotated extractor config source.files
          (Classification.ofNodes p.symbols source.nodes)).filter fun s => s.isIn q) ∧
      p.diagnostics = (Classification.ofNodes p.symbols source.nodes).filterMap diagnosticOf? := by
  simp only [ofSource] at h
  cases hnew : DirectiveExtractor.new config.directiveMarker config.descriptionMarker with
  | error e =>
    rw [hnew] at h
    cases h
  | ok extractor =>
    rw [hnew] at h
    cases h
    refine ⟨extractor, _, rfl, rfl, rfl, fun q => ?_, rfl⟩
    exact filter_partition _ _ q

theorem path_of_ofSource {source : ParsedSource} {p : Program}
    (h : ofSource source config = .ok p) : p.path = source.root := by
  simp only [ofSource] at h
  cases hnew : DirectiveExtractor.new config.directiveMarker config.descriptionMarker with
  | error e =>
    rw [hnew] at h
    cases h
  | ok extractor =>
    rw [hnew] at h
    cases h
    rfl

theorem sourceFile_annotateWith (annotators : List (Path × Annotator)) (s : Statement) :
    (annotateWith annotators s).sourceFile = s.sourceFile := by
  rw [annotateWith]
  cases annotators.find? fun a => a.1 == s.sourceFile <;> rfl

/-- What is made of the nodes of a program and stands in a file is
made of the nodes in that file. -/
theorem filter_filterMap_numbered {α : Type} (symbols : SymbolRegistry)
    (numbered : List (Nat × Node)) (q : Path) (g : Classification → Option α) (isIn : α → Bool)
    (hg : ∀ k n a, g (Classification.ofNode symbols k n) = some a → isIn a = n.location.isIn q) :
    ((numbered.map fun x => Classification.ofNode symbols x.1 x.2).filterMap g).filter isIn =
      (numbered.filter fun x => x.2.location.isIn q).filterMap fun x =>
        g (Classification.ofNode symbols x.1 x.2) := by
  rw [List.filterMap_map, List.filter_filterMap, List.filterMap_filter]
  refine List.filterMap_congr fun x _ => ?_
  cases ha : g (Classification.ofNode symbols x.1 x.2) with
  | none => simp [ha]
  | some a => simp [ha, Option.filter, hg x.1 x.2 a ha]

/-- A program documents each of its files from the nodes of that file, in their order. -/
theorem documents_of_readText {r : ProgramReader} {root : Path} {text : String}
    {source : ParsedSource} {p : Program} (h : r.readText root text = .ok source)
    (hp : ofSource source config = .ok p) {f : SourceFile} (hf : f ∈ p.sources) :
    ∃ extractor t items numbered,
      DirectiveExtractor.new config.directiveMarker config.descriptionMarker = .ok extractor ∧
      r.Holds root text f.path t ∧ f = .ofText f.path t ∧ parseItems f.path t = .ok items ∧
      numbered.map Prod.snd = statementsOf items ∧ p.Documents extractor config f numbered := by
  obtain ⟨extractor, directives, hextractor, hsymbols, hsources, hstatements, hdiagnostics⟩ :=
    ofSource_spec hp
  obtain ⟨_, _, hspliced⟩ := ProgramReader.exists_spliced h
  rw [hsources] at hf
  obtain ⟨t, items, ht, htext, hparse, hnodes, -⟩ := hspliced.statements f hf
  obtain ⟨numbered, hnumbered, hclassified⟩ :=
    Classification.ofNodesFrom_numbered p.symbols 0 source.nodes
  have hmap : (numbered.filter fun x => x.2.location.isIn f.path).map Prod.snd =
      source.nodes.filter fun n => n.location.isIn f.path := by
    rw [← hnumbered, List.filter_map]
    rfl
  refine ⟨extractor, t, items, numbered.filter fun x => x.2.location.isIn f.path, hextractor, ht,
    htext, hparse, hmap.trans hnodes, ?_, ?_, ?_⟩
  · intro x hx
    have hn : x.2 ∈ source.nodes.filter fun n => n.location.isIn f.path := by
      rw [← hmap]
      exact List.mem_map_of_mem hx
    rw [hsymbols, hspliced.rooted]
    exact SymbolRegistry.faithful_of_readText h directives config.predicateDirective hf hn
  · rw [hstatements, annotated, Classification.ofNodes, hclassified, List.map_filterMap,
      filter_filterMap_numbered]
    · refine List.filterMap_congr fun x hx => ?_
      cases hs : (Classification.ofNode p.symbols x.1 x.2).statement? with
      | none => rfl
      | some s =>
        have hin : s.isIn f.path = true := by
          rw [Statement.isIn, Classification.file_of_statement? hs]
          exact (List.mem_filter.mp hx).2
        rw [Option.map_some, annotateWith_of_mem hspliced.distinct hf extractor hin,
          Option.map_some]
    · intro k n s hs
      obtain ⟨bare, hbare, rfl⟩ := Option.map_eq_some_iff.mp hs
      rw [Statement.isIn, sourceFile_annotateWith, Classification.file_of_statement? hbare]
      rfl
  · rw [hdiagnostics, Classification.ofNodes, hclassified, filter_filterMap_numbered]
    intro k n d hd
    rw [location_of_diagnosticOf? hd]

end Program
end AspAtlas
