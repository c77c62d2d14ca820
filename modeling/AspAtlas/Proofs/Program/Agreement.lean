import AspAtlas.Proofs.Program.Files
/-!
A file is documented the same way whether it is the root of a program or an include, and every file
of a program can be loaded as a program of its own.
-/
namespace AspAtlas

/-- The reader of programs under a configuration. -/
abbrev AnalysisConfig.reader (config : AnalysisConfig) (fs : FileSystem) : ProgramReader :=
  ⟨fs, config.maxFileSize⟩

namespace ProgramReader

variable {r : ProgramReader} {root v : Path} {text t : String}

/-- When the root holds what can be read there, a run finds everywhere what can be read. -/
theorem holds_iff_of_read (hfs : r.fileSystem.ReadsByComponents)
    (hread : r.fileSystem.read root = .ok text) (hsize : text.utf8ByteSize ≤ r.maxFileSize)
    (p : Path) (t : String) :
    r.Holds root text p t ↔ r.fileSystem.read p = .ok t ∧ t.utf8ByteSize ≤ r.maxFileSize := by
  constructor
  · intro h
    cases h with
    | root hp => exact ⟨(hfs _ _ hp).trans hread, hsize⟩
    | read _ hread hsize => exact ⟨hread, hsize⟩
  · rintro ⟨hp, ht⟩
    by_cases hroot : p.components = root.components
    · rw [hfs _ _ hroot, hread, Except.ok.injEq] at hp
      subst hp
      exact .root hroot
    · exact .read hroot hp ht

/-- What a file of a closure includes is in the closure. -/
theorem Closure.trans (hsame : ∀ p s, r.Holds v t p s → r.Holds root text p s)
    (hv : r.Closure root text v) {p : Path} (hp : r.Closure v t p) : r.Closure root text p := by
  induction hp with
  | root => exact hv
  | includes _ hs hparse hi ih => exact .includes ih (hsame _ _ hs) hparse hi

/-- Every file that was read with a root can be read as a root. -/
theorem readText_of_mem_files (hfs : r.fileSystem.ReadsByComponents)
    (hread : r.fileSystem.read root = .ok text) (hsize : text.utf8ByteSize ≤ r.maxFileSize)
    {source : ParsedSource} (hsource : r.readText root text = .ok source) {f : SourceFile}
    (hf : f ∈ source.files) :
    ∃ t other, r.fileSystem.read f.path = .ok t ∧ t.utf8ByteSize ≤ r.maxFileSize ∧
      r.readText f.path t = .ok other := by
  obtain ⟨_, _, hspliced⟩ := exists_spliced hsource
  obtain ⟨t, _, ht, -⟩ := hspliced.statements f hf
  obtain ⟨htread, htsize⟩ := (holds_iff_of_read hfs hread hsize _ _).mp ht
  have hsame (p : Path) (s : String) : r.Holds f.path t p s ↔ r.Holds root text p s := by
    rw [holds_iff_of_read hfs htread htsize, holds_iff_of_read hfs hread hsize]
  have haccepts : ∀ p, r.Closure f.path t p → r.Accepts f.path t p := by
    intro p hp
    have hclosure : r.Closure root text p :=
      Closure.trans (fun p s => (hsame p s).mp) (hspliced.inClosure f hf) hp
    obtain ⟨s, items, hs, hparse⟩ := accepts_of_readText hfs hsource hclosure
    exact ⟨s, items, (hsame p s).mpr hs, hparse⟩
  obtain ⟨other, hother⟩ := readText_of_accepts haccepts
  exact ⟨t, other, htread, htsize, hother⟩

theorem load_eq_ok_iff {source : ParsedSource} :
    r.load root = .ok source ↔ r.fileSystem.isFile root = true ∧
      ∃ text, r.content root = .ok text ∧ r.readText root text = .ok source := by
  simp only [load]
  by_cases hfile : r.fileSystem.isFile root = true
  · cases hc : r.content root with
    | error cause => simp [hfile]
    | ok text => simp [hfile]
  · simp [hfile]

end ProgramReader

/-- Diagnostics are the same when their places and messages are. -/
theorem Diagnostic.beq_of_location {d e : Diagnostic} (h : (d.location == e.location) = true)
    (hmessage : d.message = e.message) : (d == e) = true := by
  change instBEqDiagnostic.beq _ _ = true
  obtain ⟨location, message⟩ := d
  obtain ⟨location', message'⟩ := e
  simp_all [instBEqDiagnostic.beq]

namespace Program

variable {config : AnalysisConfig} {fs fs' : FileSystem} {root root' : Path} {text text' : String}
  {p p' : Program}

/-- A program is built from a text as the content of a path: one that was given, or the one that can
be read there. -/
inductive Built (config : AnalysisConfig) (fs : FileSystem) (root : Path) :
    String → Program → Prop
  | ofText {text : String} {p : Program} (h : Program.ofText fs root text config = .ok p) :
      Built config fs root text p
  | load {text : String} {p : Program} (hread : fs.read root = .ok text)
      (h : Program.load fs root config = .ok p) : Built config fs root text p

/-- A program that is made of what was read comes from a source. -/
theorem exists_source_of_bind {read : Except Error ParsedSource}
    (h : (read >>= fun source => ofSource source config) = .ok p) :
    ∃ source, read = .ok source ∧ ofSource source config = .ok p := by
  cases read with
  | error e => cases h
  | ok source => exact ⟨source, rfl, h⟩

theorem exists_source_of_load (h : load fs root config = .ok p) :
    ∃ source, (config.reader fs).load root = .ok source ∧ ofSource source config = .ok p :=
  exists_source_of_bind h

theorem Built.exists_source (h : Built config fs root text p) :
    ∃ source, (config.reader fs).readText root text = .ok source ∧
      ofSource source config = .ok p := by
  cases h with
  | ofText h => exact exists_source_of_bind h
  | load hread h =>
    obtain ⟨source, hsource, hp⟩ := exists_source_of_load h
    obtain ⟨-, t, hc, hsource⟩ := ProgramReader.load_eq_ok_iff.mp hsource
    have ht := ProgramReader.read_of_content hc
    rw [hread, Except.ok.injEq] at ht
    subst ht
    exact ⟨source, hsource, hp⟩

theorem Built.root_mem_sources (h : Built config fs root text p) :
    SourceFile.ofText root text ∈ p.sources := by
  obtain ⟨source, hsource, hp⟩ := h.exists_source
  obtain ⟨_, _, -, -, hsources, -⟩ := ofSource_spec hp
  rw [hsources]
  exact ProgramReader.root_mem_files hsource

/-- Nodes of one text in two files, each under a registry that is faithful to it. -/
def Paired (r r' : SymbolRegistry) (file file' : Path) (x y : Nat × Node) : Prop :=
  ∃ n : Node, x.2 = n.relocate file ∧ y.2 = n.relocate file' ∧ r.Faithful x.2 ∧ r'.Faithful y.2

theorem Documents.faithful_relocate {extractor : DirectiveExtractor} {f : SourceFile}
    {numbered : List (Nat × Node)} (h : p.Documents extractor config f numbered) {nodes : List Node}
    (hnodes : numbered.map Prod.snd = nodes.map (Node.relocate f.path)) {n : Node}
    (hn : n ∈ nodes) : p.symbols.Faithful (n.relocate f.path) := by
  have hmem : n.relocate f.path ∈ numbered.map Prod.snd := by
    rw [hnodes]
    exact List.mem_map_of_mem hn
  obtain ⟨x, hx, he⟩ := List.mem_map.mp hmem
  rw [← he]
  exact h.faithful x hx

theorem Documents.paired {extractor : DirectiveExtractor} {f f' : SourceFile}
    {numbered numbered' : List (Nat × Node)} (h : p.Documents extractor config f numbered)
    (h' : p'.Documents extractor config f' numbered') {nodes : List Node}
    (hnodes : numbered.map Prod.snd = nodes.map (Node.relocate f.path))
    (hnodes' : numbered'.map Prod.snd = nodes.map (Node.relocate f'.path)) :
    List.Forall₂ (Paired p.symbols p'.symbols f.path f'.path) numbered numbered' := by
  have hmapped : List.Forall₂ (fun a b => ∃ n : Node, a = n.relocate f.path ∧
      b = n.relocate f'.path ∧ p.symbols.Faithful a ∧ p'.symbols.Faithful b)
      (numbered.map Prod.snd) (numbered'.map Prod.snd) := by
    rw [hnodes, hnodes', List.forall₂_map_left_iff, List.forall₂_map_right_iff]
    refine List.forall₂_same.mpr fun n hn => ⟨n, rfl, rfl, ?_, ?_⟩
    · exact h.faithful_relocate hnodes hn
    · exact h'.faithful_relocate hnodes' hn
  rwa [List.forall₂_map_left_iff, List.forall₂_map_right_iff] at hmapped

theorem Paired.classified_alike {r r' : SymbolRegistry} {file file' : Path} {x y : Nat × Node}
    (h : Paired r r' file file' x y) (hfile : file.components = file'.components) :
    (Classification.ofNode r x.1 x.2).Alike (Classification.ofNode r' y.1 y.2) := by
  obtain ⟨n, hx, hy, hfaithful, hfaithful'⟩ := h
  rw [hx] at hfaithful ⊢
  rw [hy] at hfaithful' ⊢
  exact Classification.ofNode_alike x.1 y.1 hfile hfaithful hfaithful'

theorem annotated_alike {c c' : Classification} (h : c.Alike c') {f f' : SourceFile}
    (hpath : f.path.components = f'.path.components) (hlines : f.lines = f'.lines)
    (extractor : DirectiveExtractor) (config : AnalysisConfig) :
    Option.Rel Statement.Alike (c.statement?.map (annotatorOf extractor config f).annotate)
      (c'.statement?.map (annotatorOf extractor config f').annotate) := by
  cases h with
  | ignored => exact .none
  | unclassifiable => exact .none
  | statement hst =>
    refine .some ?_
    rw [annotatorOf, annotatorOf, ← hlines]
    exact hst.annotate hpath extractor config.sectionDirective f.lines config.commentMarker

theorem diagnosticOf?_alike {c c' : Classification} (h : c.Alike c') :
    Option.Rel (fun d e => (d == e) = true) (diagnosticOf? c) (diagnosticOf? c') := by
  cases h with
  | ignored => exact .none
  | unclassifiable hlocation => exact .some (Diagnostic.beq_of_location hlocation rfl)
  | statement => exact .none

/-- Programs that document the same text in a file document it alike. -/
theorem Documents.alike {extractor : DirectiveExtractor} {f f' : SourceFile}
    {numbered numbered' : List (Nat × Node)} (h : p.Documents extractor config f numbered)
    (h' : p'.Documents extractor config f' numbered')
    (hpath : f.path.components = f'.path.components) (hlines : f.lines = f'.lines)
    (hpaired : List.Forall₂ (Paired p.symbols p'.symbols f.path f'.path) numbered numbered') :
    List.Forall₂ Statement.Alike (p.allStatements.filter fun s => s.isIn f.path)
        (p'.allStatements.filter fun s => s.isIn f'.path) ∧
      List.Forall₂ (fun d e => (d == e) = true)
        (p.diagnostics.filter fun d => d.location.isIn f.path)
        (p'.diagnostics.filter fun d => d.location.isIn f'.path) := by
  rw [h.statements, h'.statements, h.diagnostics, h'.diagnostics]
  constructor
  · refine List.rel_filterMap ?_ hpaired
    intro x y hxy
    exact annotated_alike (hxy.classified_alike hpath) hpath hlines extractor config
  · refine List.rel_filterMap ?_ hpaired
    intro x y hxy
    exact diagnosticOf?_alike (hxy.classified_alike hpath)

/-- A file that can be read with its includes can be loaded, given usable markers. -/
theorem exists_load {extractor : DirectiveExtractor}
    (hextractor : DirectiveExtractor.new config.directiveMarker config.descriptionMarker =
      .ok extractor)
    (hfile : fs.isFile root = true) (hread : fs.read root = .ok text)
    (hsize : text.utf8ByteSize ≤ config.maxFileSize) {source : ParsedSource}
    (hsource : (config.reader fs).readText root text = .ok source) :
    ∃ p, load fs root config = .ok p := by
  have hcontent : (config.reader fs).content root = .ok text :=
    ProgramReader.content_eq_ok_iff.mpr ⟨hread, hsize⟩
  have hload : (config.reader fs).load root = .ok source :=
    ProgramReader.load_eq_ok_iff.mpr ⟨hfile, text, hcontent, hsource⟩
  have hp : ∃ p, ofSource source config = .ok p := by
    simp only [ofSource, hextractor]
    exact ⟨_, rfl⟩
  obtain ⟨p, hp⟩ := hp
  refine ⟨p, ?_⟩
  rw [load, hload]
  exact hp

/-- An empty file is loaded as a program without nodes. -/
theorem load_of_empty (hfile : fs.isFile root = true) (hread : fs.read root = .ok "") :
    load fs root config = ofSource ⟨root, [], [.ofText root ""]⟩ config := by
  have hempty : (parseItems ⟨""⟩ "").toOption.map List.isEmpty = some true := rfl
  obtain ⟨items, hparse, hnil⟩ := exists_ok_of_toOption hempty
  obtain rfl := List.isEmpty_iff.mp hnil
  have hsource := ProgramReader.readText_of_targetsOf_eq_nil (config.reader fs)
    (parseItems_relocate hparse root) rfl
  have hcontent : (config.reader fs).content root = .ok "" :=
    ProgramReader.content_eq_ok_iff.mpr ⟨hread, Nat.zero_le _⟩
  have hload := ProgramReader.load_eq_ok_iff.mpr ⟨hfile, "", hcontent, hsource⟩
  rw [load, hload]
  rfl

theorem load_of_not_isFile (h : fs.isFile root = false) :
    load fs root config = .error (.sourceNotFound root) := by
  have hload : (config.reader fs).load root = .error (.sourceNotFound root) := by
    simp [ProgramReader.load, h]
  rw [load, hload]
  rfl

/-- Every file of a program that was loaded can be loaded, if it counts as a file. -/
theorem exists_load_of_mem_sources (hfs : fs.ReadsByComponents) (h : load fs root config = .ok p)
    {f : SourceFile} (hf : f ∈ p.sources) (hfile : fs.isFile f.path = true) :
    ∃ q, load fs f.path config = .ok q := by
  obtain ⟨source, hsource, hp⟩ := exists_source_of_load h
  obtain ⟨extractor, _, hextractor, -, hsources, -⟩ := ofSource_spec hp
  rw [hsources] at hf
  obtain ⟨-, t, hc, hread⟩ := ProgramReader.load_eq_ok_iff.mp hsource
  obtain ⟨hroot, hsize⟩ := ProgramReader.content_eq_ok_iff.mp hc
  obtain ⟨s, other, hs, hssize, hother⟩ :=
    ProgramReader.readText_of_mem_files hfs hroot hsize hread hf
  exact exists_load hextractor hfile hs hssize hother

/-- Two programs under one configuration document a file that they share alike, be it the root of
one or an include of the other, as long as both found the same text there. What a program that was
loaded has been read from can be loaded as well if it is a regular file, and is not found else. -/
theorem shared_files_alike (config : AnalysisConfig) :
    (∀ fs fs' root root' text text' p p', Built config fs root text p →
      Built config fs' root' text' p' →
      ∀ f ∈ p.sources, ∀ f' ∈ p'.sources, (f.path == f'.path) = true →
      ∀ t, (config.reader fs).Holds root text f.path t →
        (config.reader fs').Holds root' text' f'.path t →
        List.Forall₂ Statement.Alike (p.allStatements.filter fun s => s.isIn f.path)
            (p'.allStatements.filter fun s => s.isIn f'.path) ∧
          List.Forall₂ (fun d e => (d == e) = true)
            (p.diagnostics.filter fun d => d.location.isIn f.path)
            (p'.diagnostics.filter fun d => d.location.isIn f'.path)) ∧
    ∀ fs : FileSystem, fs.ReadsByComponents → ∀ root p, load fs root config = .ok p →
      ∀ f ∈ p.sources,
        (fs.isFile f.path = true → ∃ q, load fs f.path config = .ok q) ∧
          (fs.isFile f.path = false → load fs f.path config = .error (.sourceNotFound f.path)) := by
  constructor
  · intro fs fs' root root' text text' p p' hp hp' f hf f' hf' hpath t ht ht'
    obtain ⟨source, hsource, hp⟩ := hp.exists_source
    obtain ⟨source', hsource', hp'⟩ := hp'.exists_source
    obtain ⟨extractor, u, items, numbered, hextractor, hu, htext, hparse, hnodes, hdocuments⟩ :=
      documents_of_readText hsource hp hf
    obtain ⟨extractor', u', items', numbered', hextractor', hu', htext', hparse', hnodes',
      hdocuments'⟩ := documents_of_readText hsource' hp' hf'
    rw [hextractor, Except.ok.injEq] at hextractor'
    subst hextractor'
    have hu := hu.unique ht
    have hu' := hu'.unique ht'
    subst hu hu'
    have hmoved := parseItems_relocate hparse f.path
    rw [hparse, Except.ok.injEq] at hmoved
    have hmoved' := parseItems_relocate hparse f'.path
    rw [hparse', Except.ok.injEq] at hmoved'
    have hnodes : numbered.map Prod.snd = (statementsOf items).map (Node.relocate f.path) := by
      rw [hnodes, ← statementsOf_relocate, ← hmoved]
    have hnodes' : numbered'.map Prod.snd = (statementsOf items).map (Node.relocate f'.path) := by
      rw [hnodes', ← statementsOf_relocate, ← hmoved']
    have hlines : f.lines = f'.lines := by
      rw [htext, htext']
      rfl
    exact hdocuments.alike hdocuments' (Path.beq_iff.mp hpath) hlines
      (hdocuments.paired hdocuments' hnodes hnodes')
  · intro fs hfs root p h f hf
    exact ⟨exists_load_of_mem_sources hfs h hf, load_of_not_isFile⟩

/-- A file that includes the null device. -/
def deviceFiles : List (Path × String) :=
  [(⟨"a.lp"⟩, "#include \"/dev/null\". a."), (⟨"/dev/null"⟩, "")]

/-- The null device can be read, but it is no regular file. -/
def withDevice : FileSystem :=
  { FileSystem.ofFiles deviceFiles with isFile := fun p => p == ⟨"a.lp"⟩ }

/-- A program that includes the null device can be loaded, but the device cannot. -/
theorem device_not_loaded :
    withDevice.ReadsByComponents ∧ ∃ p f, load withDevice ⟨"a.lp"⟩ {} = .ok p ∧ f ∈ p.sources ∧
      (f.path == ⟨"/dev/null"⟩) = true ∧
        load withDevice f.path {} = .error (.sourceNotFound f.path) := by
  have hfs : withDevice.ReadsByComponents := FileSystem.ofFiles_readsByComponents deviceFiles
  have hroot : (⟨"a.lp"⟩, "#include \"/dev/null\". a.") ∈ deviceFiles := List.mem_cons_self
  have hread : ∀ e ∈ deviceFiles, withDevice.read e.1 = .ok e.2 := by
    simp only [deviceFiles, List.forall_mem_cons]
    exact ⟨rfl, rfl, List.forall_mem_nil _⟩
  have hsize : ∀ e ∈ deviceFiles, e.2.utf8ByteSize ≤ ({} : AnalysisConfig).maxFileSize := by
    decide
  have hfiles := ProgramReader.holds_of_files (r := ({} : AnalysisConfig).reader withDevice)
    hfs.readsAlike hroot hread hsize
  have hclosed : ProgramReader.isClosed deviceFiles = true := by decide +kernel
  obtain ⟨source, hsource⟩ := ProgramReader.readText_of_accepts fun _ =>
    ProgramReader.accepts_of_isClosed hclosed hroot hfiles
  have hincluded : (({} : AnalysisConfig).reader withDevice).Closure ⟨"a.lp"⟩
      "#include \"/dev/null\". a." ⟨"/dev/null"⟩ :=
    ProgramReader.Closure.root.of_target "/dev/null" (.root rfl) (by decide +kernel)
      (by decide +kernel)
  obtain ⟨f, hf, hpath⟩ := ProgramReader.exists_file_of_closure hfs hsource hincluded
  obtain ⟨p, hp⟩ := exists_load rfl rfl (hread _ hroot) (hsize _ hroot) hsource
  have hbuilt : Built {} withDevice ⟨"a.lp"⟩ "#include \"/dev/null\". a." p :=
    .load (hread _ hroot) hp
  obtain ⟨other, hother, hofsource⟩ := hbuilt.exists_source
  obtain rfl : source = other := Except.ok.inj (hsource.symm.trans hother)
  obtain ⟨_, _, -, -, hsources, -⟩ := ofSource_spec hofsource
  rw [← hsources] at hf
  refine ⟨hfs, p, f, hp, hf, Path.beq_iff.mpr hpath, load_of_not_isFile ?_⟩
  have hother : (⟨"/dev/null"⟩ : Path).components ≠
      (⟨"a.lp"⟩ : Path).components := by decide
  rw [← hpath, ne_eq, ← Path.beq_iff, Bool.not_eq_true] at hother
  exact hother

/-- Of two files that include each other, the one that the other includes can be loaded as well,
with the same statements. -/
theorem shared_files_alike_of_cycle :
    ∃ p f q, load (.ofFiles cyclicFiles) ⟨"a.lp"⟩ {} = .ok p ∧ f ∈ p.sources ∧
      (f.path == ⟨"b.lp"⟩) = true ∧ load (.ofFiles cyclicFiles) f.path {} = .ok q ∧
      List.Forall₂ Statement.Alike (p.allStatements.filter fun s => s.isIn f.path)
        (q.allStatements.filter fun s => s.isIn f.path) := by
  have hfs := FileSystem.ofFiles_readsByComponents cyclicFiles
  have hread : (FileSystem.ofFiles cyclicFiles).read ⟨"a.lp"⟩ = .ok "#include \"b.lp\". a." := rfl
  have hsize : "#include \"b.lp\". a.".utf8ByteSize ≤ ({} : AnalysisConfig).maxFileSize := by
    decide
  have hlimit : 100 ≤ ({} : AnalysisConfig).maxFileSize := by decide
  obtain ⟨source, hsource⟩ :=
    ProgramReader.readText_of_accepts (ProgramReader.accepts_of_cycle hlimit)
  obtain ⟨p, hp⟩ := exists_load rfl (FileSystem.isFile_ofFiles hread) hread hsize hsource
  have hbuilt : Built {} (.ofFiles cyclicFiles) ⟨"a.lp"⟩ "#include \"b.lp\". a." p := .load hread hp
  obtain ⟨source, hsource, hofsource⟩ := hbuilt.exists_source
  obtain ⟨_, _, -, -, hsources, -⟩ := ofSource_spec hofsource
  obtain ⟨f, hf, hpath⟩ := ProgramReader.exists_file_of_closure hfs hsource
    (ProgramReader.closure_of_cycle _)
  rw [← hsources] at hf
  obtain ⟨_, t, _, _, -, ht, -⟩ := documents_of_readText hsource hofsource hf
  obtain ⟨hreadt, -⟩ := (ProgramReader.holds_iff_of_read hfs hread hsize _ _).mp ht
  obtain ⟨q, hq⟩ := ((shared_files_alike {}).2 _ hfs _ _ hp f hf).1
    (FileSystem.isFile_ofFiles hreadt)
  have hbuiltq : Built {} (.ofFiles cyclicFiles) f.path t q := .load hreadt hq
  refine ⟨p, f, q, hp, hf, Path.beq_iff.mpr hpath, hq, ?_⟩
  have halike := (shared_files_alike {}).1 _ _ _ _ _ _ _ _ hbuilt hbuiltq f hf _
    hbuiltq.root_mem_sources (Path.beq_iff.mpr rfl) t ht (.root rfl)
  exact halike.1

end Program
end AspAtlas
