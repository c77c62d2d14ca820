import AspAtlas.Project.Analysis
import AspAtlas.Proofs.Disk.Writes
import AspAtlas.Proofs.Program.Agreement
import Mathlib.Algebra.GroupWithZero.Nat
import Mathlib.Data.List.Induction
/-!
Runs over the programs of several source folders, turn by turn. What a run has come to is the tally
of its turns, and each turn finds what the turns before it have written.
-/
namespace AspAtlas

namespace Outcome

variable {α β : Type} {a : α} {b : β} {d d' : Disk}

theorem done_inj {a' : α} : done a d = done a' d' ↔ a = a' ∧ d = d' := by
  simp [done]

theorem andThen_eq_done {o : Outcome α} {next : α → Disk → Outcome β} :
    o.andThen next = done b d' ↔ ∃ a mid, o = done a mid ∧ next a mid = done b d' := by
  obtain ⟨result, disk⟩ := o
  cases result with
  | ok a =>
    constructor
    · intro h
      exact ⟨a, disk, rfl, h⟩
    · rintro ⟨a, mid, h, hnext⟩
      cases h
      exact hnext
  | error f => simp [andThen, done, failed]

theorem write_eq_done {p : Path} {text : String} :
    write p text d = done () d' ↔ d.writeText p text = .ok d' := by
  rw [write]
  cases d.writeText p text <;> simp [done, failed]

theorem addsFolders_of_createFolders {what : String} {p : Path}
    (h : createFolders what p d = done () d') : d.AddsFolders d' := by
  have hchain := Disk.AddsFolders.of_createChain d (Disk.ancestors (p.components.length + 1) p)
  rw [createFolders, Disk.createFolders] at h
  generalize d.createChain (Disk.ancestors (p.components.length + 1) p) = x at h hchain
  obtain ⟨result, mid⟩ := x
  cases result with
  | ok _ =>
    cases h
    exact hchain
  | error cause => simp [done, failed] at h

end Outcome

namespace Project

/-- A program goes by the path that its file was found under. -/
theorem path_of_analyzeFile {c : Config} {d : Disk} {file : Path} {sourceRoot : Option Path}
    {p : Program} (h : analyzeFile c d file sourceRoot = .ok p) : p.path = file := by
  rw [analyzeFile] at h
  cases hload : Program.load d.fileSystem file c.analysis with
  | error e => simp [hload, Except.map] at h
  | ok q =>
    obtain ⟨source, hsource, hq⟩ := Program.exists_source_of_load hload
    obtain ⟨-, text, -, hread⟩ := ProgramReader.load_eq_ok_iff.mp hsource
    obtain ⟨_, _, hspliced⟩ := ProgramReader.exists_spliced hread
    have hpath : q.path = file := (Program.path_of_ofSource hq).trans hspliced.rooted
    simp only [hload, Except.map, Except.ok.injEq] at h
    subst h
    cases sourceRoot <;> cases c.output.includeSourceLines <;> exact hpath

/-- Files that are found in order are those of a source folder. -/
theorem discover_of_sorted {c : Config} {d : Disk} {source : Path} (texts : List String)
    (h : ((configuredRules c.project.ignorePatterns).toOption.bind fun rules =>
      (Ignore.filesAt d source rules).toOption.map fun files =>
        (files.filter c.analysis.isProgramFile).map Path.text) = some texts)
    (hsorted : (texts.map Path.mk).Pairwise fun a b => (compare a b).isLE) :
    discover c d source = .ok (texts.map Path.mk) := by
  rw [discover]
  cases hrules : configuredRules c.project.ignorePatterns with
  | error e => simp [hrules, Except.toOption] at h
  | ok rules =>
    cases hfiles : Ignore.filesAt d source rules with
    | error cause => simp [hrules, hfiles, Except.toOption] at h
    | ok files =>
      simp only [hrules, hfiles, Except.toOption, Option.bind_some, Option.map_some,
        Option.some.injEq] at h
      have hmk : (files.filter c.analysis.isProgramFile).map (Path.mk ∘ Path.text) =
          files.filter c.analysis.isProgramFile := List.map_id _
      subst h
      rw [List.map_map, hmk] at hsorted ⊢
      simp only [hfiles, List.mergeSort_of_pairwise hsorted]

/-- A file whose turn it is in a run: the source folder it was found in, the root that its
statements are qualified with, and the disk as it is by then. -/
structure Turn where
  source : Path
  sourceRoot : Option Path
  file : Path
  disk : Disk

/-- The program of a file at its turn. -/
def Turn.outcome (c : Config) (t : Turn) : Except Error Program :=
  analyzeFile c t.disk t.file t.sourceRoot

/-- The program of a turn, if there is one. -/
def Turn.program? (c : Config) (t : Turn) : Option Program := (t.outcome c).toOption

/-- The file of a turn with what went wrong, if anything did. -/
def Turn.failure? (c : Config) (t : Turn) : Option (Path × Error) :=
  match t.outcome c with
  | .ok _ => none
  | .error e => some (t.file, e)

/-- The summary with one more turn. -/
def Summary.addTurn (c : Config) (s : Summary) (t : Turn) : Summary :=
  match t.outcome c with
  | .ok p => s.add t.file p
  | .error e => s.addFailure t.file e

variable {c : Config} {use : Program → Path → Disk → Outcome Unit}

section Outcomes

variable {t : Turn} {p : Program} {e : Error}

theorem Turn.program?_of_ok (h : t.outcome c = .ok p) : t.program? c = some p := by
  rw [program?, h]
  rfl

theorem Turn.program?_of_error (h : t.outcome c = .error e) : t.program? c = none := by
  rw [program?, h]
  rfl

theorem Turn.failure?_of_ok (h : t.outcome c = .ok p) : t.failure? c = none := by
  simp only [failure?, h]

theorem Turn.failure?_of_error (h : t.outcome c = .error e) : t.failure? c = some (t.file, e) := by
  simp only [failure?, h]

theorem Summary.addTurn_of_ok (s : Summary) (h : t.outcome c = .ok p) :
    s.addTurn c t = s.add t.file p := by
  simp only [addTurn, h]

theorem Summary.addTurn_of_error (s : Summary) (h : t.outcome c = .error e) :
    s.addTurn c t = s.addFailure t.file e := by
  simp only [addTurn, h]

end Outcomes

/-- The disk after a turn: a program is put to its use, and nothing happens without one. -/
inductive Turn.Leaves (c : Config) (use : Program → Path → Disk → Outcome Unit)
    (t : Turn) : Disk → Prop
  | analyzed {p : Program} {d : Disk} (hp : t.outcome c = .ok p)
      (huse : use p t.source t.disk = .done () d) : Leaves c use t d
  | failed {e : Error} (he : t.outcome c = .error e) : Leaves c use t t.disk

/-- The turns of the files of one source folder, and the disk after them. -/
inductive FilesRun (c : Config) (use : Program → Path → Disk → Outcome Unit) (source : Path)
    (sourceRoot : Option Path) : List Path → Disk → List Turn → Disk → Prop
  | nil {d : Disk} : FilesRun c use source sourceRoot [] d [] d
  | cons {file : Path} {files : List Path} {d mid d' : Disk} {turns : List Turn}
      (h : Turn.Leaves c use ⟨source, sourceRoot, file, d⟩ mid)
      (hrest : FilesRun c use source sourceRoot files mid turns d') :
      FilesRun c use source sourceRoot (file :: files) d (⟨source, sourceRoot, file, d⟩ :: turns) d'

/-- The turns of the files of several source folders. Each folder that is there gives the files that
are found in it when it is reached; several files are qualified relative to it. -/
inductive SourcesRun (c : Config) (use : Program → Path → Disk → Outcome Unit) :
    List Path → Disk → List Turn → Disk → Prop
  | nil {d : Disk} : SourcesRun c use [] d [] d
  | missing {source : Path} {sources : List Path} {d d' : Disk} {turns : List Turn}
      (h : d.isPresent source = false) (hrest : SourcesRun c use sources d turns d') :
      SourcesRun c use (source :: sources) d turns d'
  | present {source : Path} {sources files : List Path} {d mid d' : Disk} {turns more : List Turn}
      (h : d.isPresent source = true) (hfiles : discover c d source = .ok files)
      (hturns : FilesRun c use source (if 1 < files.length then some source
        else none) files d turns mid)
      (hrest : SourcesRun c use sources mid more d') :
      SourcesRun c use (source :: sources) d (turns ++ more) d'

theorem FilesRun.source_eq {source : Path} {sourceRoot : Option Path} {files : List Path}
    {d d' : Disk} {turns : List Turn} (h : FilesRun c use source sourceRoot files d turns d') :
    ∀ t ∈ turns, t.source = source := by
  induction h with
  | nil => simp
  | cons _ _ ih => exact List.forall_mem_cons.mpr ⟨rfl, ih⟩

theorem SourcesRun.source_mem {sources : List Path} {d d' : Disk} {turns : List Turn}
    (h : SourcesRun c use sources d turns d') : ∀ t ∈ turns, t.source ∈ sources := by
  induction h with
  | nil => simp
  | missing _ _ ih => exact fun t ht => List.mem_cons_of_mem _ (ih t ht)
  | present _ _ hturns _ ih =>
    refine List.forall_mem_append.mpr ⟨fun t ht => ?_, fun t ht => List.mem_cons_of_mem _ (ih t ht)⟩
    rw [hturns.source_eq t ht]
    exact List.mem_cons_self

theorem analyzeFiles_eq_done {source : Path} {sourceRoot : Option Path} {files : List Path}
    {s s' : Summary} {d d' : Disk} :
    analyzeFiles c sourceRoot (fun p => use p source) files s d = .done s' d' ↔
      ∃ turns, FilesRun c use source sourceRoot files d turns d' ∧
        s' = turns.foldl (Summary.addTurn c) s := by
  induction files generalizing s d with
  | nil =>
    rw [analyzeFiles, Outcome.done_inj]
    constructor
    · rintro ⟨rfl, rfl⟩
      exact ⟨[], .nil, rfl⟩
    · rintro ⟨turns, hturns, rfl⟩
      cases hturns
      exact ⟨rfl, rfl⟩
  | cons file files ih =>
    cases hfile : analyzeFile c d file sourceRoot with
    | ok p =>
      have hadd := Summary.addTurn_of_ok s (t := ⟨source, sourceRoot, file, d⟩) hfile
      simp only [analyzeFiles, hfile, Outcome.andThen_eq_done, ih]
      constructor
      · rintro ⟨_, mid, huse, turns, hturns, rfl⟩
        exact ⟨_ :: turns, .cons (.analyzed hfile huse) hturns, by rw [List.foldl_cons, hadd]⟩
      · rintro ⟨turns, hturns, rfl⟩
        cases hturns with
        | cons h hrest =>
          cases h with
          | analyzed hp huse =>
            obtain rfl : p = _ := Except.ok.inj (hfile.symm.trans hp)
            exact ⟨(), _, huse, _, hrest, by rw [List.foldl_cons, hadd]⟩
          | failed he => cases hfile.symm.trans he
    | error e =>
      have hadd := Summary.addTurn_of_error s (t := ⟨source, sourceRoot, file, d⟩) hfile
      simp only [analyzeFiles, hfile, ih]
      constructor
      · rintro ⟨turns, hturns, rfl⟩
        exact ⟨_ :: turns, .cons (.failed hfile) hturns, by rw [List.foldl_cons, hadd]⟩
      · rintro ⟨turns, hturns, rfl⟩
        cases hturns with
        | cons h hrest =>
          cases h with
          | analyzed hp huse => cases hfile.symm.trans hp
          | failed he => exact ⟨_, hrest, by rw [List.foldl_cons, hadd]⟩

/-- A run that comes to an end takes its turns, and its summary is that of the turns. -/
theorem analyzeSources_eq_done {sources : List Path} {s s' : Summary} {d d' : Disk} :
    analyzeSources c use sources s d = .done s' d' ↔
      ∃ turns, SourcesRun c use sources d turns d' ∧ s' = turns.foldl (Summary.addTurn c) s := by
  induction sources generalizing s d with
  | nil =>
    rw [analyzeSources, Outcome.done_inj]
    constructor
    · rintro ⟨rfl, rfl⟩
      exact ⟨[], .nil, rfl⟩
    · rintro ⟨turns, hturns, rfl⟩
      cases hturns
      exact ⟨rfl, rfl⟩
  | cons source sources ih =>
    rw [analyzeSources]
    cases hpresent : d.isPresent source with
    | false =>
      simp only [Bool.false_eq_true, if_false, ih]
      constructor
      · rintro ⟨turns, hturns, rfl⟩
        exact ⟨turns, .missing hpresent hturns, rfl⟩
      · rintro ⟨turns, hturns, rfl⟩
        cases hturns with
        | missing _ hrest => exact ⟨turns, hrest, rfl⟩
        | present h _ _ _ => cases hpresent.symm.trans h
    | true =>
      cases hfiles : discover c d source with
      | error e =>
        simp only [if_true]
        constructor
        · intro h
          simp [Outcome.failed, Outcome.done] at h
        · rintro ⟨turns, hturns, -⟩
          cases hturns with
          | missing h _ => cases hpresent.symm.trans h
          | present _ hfound _ _ => cases hfiles.symm.trans hfound
      | ok files =>
        simp only [if_true, Outcome.andThen_eq_done, analyzeFiles_eq_done, ih]
        constructor
        · rintro ⟨_, mid, ⟨turns, hturns, rfl⟩, more, hmore, rfl⟩
          exact ⟨turns ++ more, .present hpresent hfiles hturns hmore, by rw [List.foldl_append]⟩
        · rintro ⟨turns, hturns, rfl⟩
          cases hturns with
          | missing h _ => cases hpresent.symm.trans h
          | @present _ _ _ _ mid _ first more _ hfound hfirst hrest =>
            obtain rfl : files = _ := Except.ok.inj (hfiles.symm.trans hfound)
            exact ⟨_, mid, ⟨first, hfirst, rfl⟩, more, hrest, by rw [List.foldl_append]⟩

/-- A summary of some turns: the files of those with a program, the others with their errors, both
in order, and the statements and diagnostics of the programs. -/
structure Tallies (c : Config) (turns : List Turn) (s : Summary) : Prop where
  analyzed : s.analyzed = (turns.filter fun t => (t.program? c).isSome).map Turn.file
  failed : s.failed = turns.filterMap (Turn.failure? c)
  statements : s.statements = ((turns.filterMap (Turn.program? c)).map (·.statements.length)).sum
  diagnostics : s.diagnostics = ((turns.filterMap (Turn.program? c)).map (·.diagnostics.length)).sum

theorem Tallies.addTurn {turns : List Turn} {s : Summary} (h : Tallies c turns s) (t : Turn) :
    Tallies c (turns ++ [t]) (s.addTurn c t) := by
  obtain ⟨hanalyzed, hfailed, hstatements, hdiagnostics⟩ := h
  cases ht : t.outcome c with
  | ok p =>
    have hprogram := Turn.program?_of_ok ht
    have hfailure := Turn.failure?_of_ok ht
    rw [Summary.addTurn_of_ok s ht]
    constructor <;>
      simp [Summary.add, hprogram, hfailure, hanalyzed, hfailed, hstatements, hdiagnostics]
  | error e =>
    have hprogram := Turn.program?_of_error ht
    have hfailure := Turn.failure?_of_error ht
    rw [Summary.addTurn_of_error s ht]
    constructor <;>
      simp [Summary.addFailure, hprogram, hfailure, hanalyzed, hfailed, hstatements, hdiagnostics]

theorem tallies_foldl (turns : List Turn) :
    Tallies c turns (turns.foldl (Summary.addTurn c) {}) := by
  induction turns using List.reverseRecOn with
  | nil => exact ⟨rfl, rfl, rfl, rfl⟩
  | append_singleton turns t ih =>
    rw [List.foldl_append]
    exact ih.addTurn t

/-- A run ends with the tally of its turns. -/
theorem exists_turns {sources : List Path} {s : Summary} {d d' : Disk}
    (h : analyzeSources c use sources {} d = .done s d') :
    ∃ turns, SourcesRun c use sources d turns d' ∧ Tallies c turns s := by
  obtain ⟨turns, hturns, rfl⟩ := analyzeSources_eq_done.mp h
  exact ⟨turns, hturns, tallies_foldl turns⟩

/-- What a turn writes, when a use of programs is to write some texts about each. -/
def Turn.written (c : Config) (texts : Program → Path → List (Path × String)) (t : Turn) :
    List (Path × String) :=
  match t.outcome c with
  | .ok p => texts p t.source
  | .error _ => []

/-- A use of programs that writes some texts about each, and nothing else. -/
def Wrote (use : Program → Path → Disk → Outcome Unit)
    (texts : Program → Path → List (Path × String)) : Prop :=
  ∀ p source d d', use p source d = .done () d' → d.Writes (texts p source) d'

section Writing

variable {texts : Program → Path → List (Path × String)} {d mid d' : Disk} {turns : List Turn}
  {source : Path} {sourceRoot : Option Path} {files sources : List Path}

theorem Turn.Leaves.writes (huse : Wrote use texts) {t : Turn} (h : t.Leaves c use d') :
    t.disk.Writes (t.written c texts) d' := by
  cases h with
  | analyzed hp hdone =>
    simp only [Turn.written, hp]
    exact huse _ _ _ _ hdone
  | failed he =>
    simp only [Turn.written, he]
    exact .done

/-- A turn finds what the turns before it have written, and a run leaves what all have. -/
theorem FilesRun.writes (huse : Wrote use texts)
    (h : FilesRun c use source sourceRoot files d turns d') :
    d.Writes (turns.flatMap (Turn.written c texts)) d' ∧
      ∀ before t behind, turns = before ++ t :: behind →
        d.Writes (before.flatMap (Turn.written c texts)) t.disk := by
  induction h with
  | nil =>
    refine ⟨.done, fun before t behind he => ?_⟩
    simp at he
  | @cons file files d mid d' turns h _ ih =>
    obtain ⟨hall, hturn⟩ := ih
    have hfirst : d.Writes _ mid := h.writes huse
    refine ⟨hfirst.append hall, fun before t behind he => ?_⟩
    cases before with
    | nil =>
      obtain ⟨rfl, -⟩ := List.cons.inj he
      exact .done
    | cons first before =>
      obtain ⟨rfl, hlater⟩ := List.cons.inj he
      exact hfirst.append (hturn before t behind hlater)

theorem SourcesRun.writes (huse : Wrote use texts) (h : SourcesRun c use sources d turns d') :
    d.Writes (turns.flatMap (Turn.written c texts)) d' ∧
      ∀ before t behind, turns = before ++ t :: behind →
        d.Writes (before.flatMap (Turn.written c texts)) t.disk := by
  induction h with
  | nil =>
    refine ⟨.done, fun before t behind he => ?_⟩
    simp at he
  | missing _ _ ih => exact ih
  | @present source sources files d mid d' turns more _ _ hturns _ ih =>
    obtain ⟨hfirst, hturn⟩ := hturns.writes huse
    obtain ⟨hrest, hlater⟩ := ih
    rw [List.flatMap_append]
    refine ⟨hfirst.append hrest, fun before t behind he => ?_⟩
    rcases List.append_eq_append_iff.mp he with ⟨between, rfl, hmore⟩ | ⟨between, rfl, hmore⟩
    · rw [List.flatMap_append]
      exact hfirst.append (hlater between t behind hmore)
    · cases between with
      | nil =>
        have hwritten := hfirst.append (hlater [] t behind hmore.symm)
        rwa [List.flatMap_nil, List.append_nil, List.append_nil] at hwritten
      | cons first between =>
        obtain ⟨rfl, -⟩ := List.cons.inj hmore
        exact hturn before _ between rfl

end Writing

section Outputs

variable {log : List (Path × String)} {d d' : Disk}

theorem writes_of_writeAll (h : writeAll log d = .done () d') : d.Writes log d' := by
  induction log generalizing d with
  | nil =>
    obtain ⟨-, rfl⟩ := Outcome.done_inj.mp h
    exact .done
  | cons e log ih =>
    rw [writeAll, Outcome.andThen_eq_done] at h
    obtain ⟨_, mid, hwrite, hrest⟩ := h
    exact .text (Outcome.write_eq_done.mp hwrite) (ih hrest)

theorem exists_writeAll (h : ∀ e ∈ log, d.Writable e.1) : ∃ d', writeAll log d = .done () d' := by
  induction log generalizing d with
  | nil => exact ⟨d, rfl⟩
  | cons e log ih =>
    obtain ⟨hfirst, hlog⟩ := List.forall_mem_cons.mp h
    obtain ⟨mid, hwrite⟩ := (Disk.writable_iff_writeText e.2).mp hfirst
    obtain ⟨d', hrest⟩ := ih fun e he => Disk.writable_kept (hlog e he) hwrite
    refine ⟨d', ?_⟩
    rw [writeAll, Outcome.andThen_eq_done]
    exact ⟨(), mid, Outcome.write_eq_done.mpr hwrite, hrest⟩

theorem writable_of_writeAll {p : Path} (h : writeAll log d = .done () d') (hp : d.Writable p) :
    d'.Writable p := by
  induction log generalizing d with
  | nil =>
    obtain ⟨-, rfl⟩ := Outcome.done_inj.mp h
    exact hp
  | cons e log ih =>
    rw [writeAll, Outcome.andThen_eq_done] at h
    obtain ⟨_, mid, hwrite, hrest⟩ := h
    exact ih hrest (Disk.writable_kept hp (Outcome.write_eq_done.mp hwrite))

/-- What is written about a program: the report, or a graph. -/
inductive Product where
  | report
  | graph (kind : GraphKind)
deriving DecidableEq

namespace Product

/-- The extension of the file that a product is written to. -/
def extension : Product → String
  | report => "json"
  | graph kind => kind.extension

/-- A product of a program, as a text. -/
def text (c : Config) (now : Timestamp) (p : Program) : Product → String
  | report => (Report.ofProgram p now).print (if c.output.prettyJson then .pretty else .compact)
  | graph kind => dotOf p kind

end Product

/-- What is written about each program. -/
def products (c : Config) : List Product := .report :: (graphKinds c.graphs).map .graph

theorem outputs_eq (c : Config) (now : Timestamp) (p : Program) (base : Path) :
    outputs c now p base =
      (products c).map fun x => (base.withExtension x.extension, x.text c now p) := by
  rw [outputs, products, List.map_cons, List.map_map]
  rfl

/-- The files about a program go where the path of the program leads, from its source folder to the
output folder. -/
theorem reportBase_eq {p : Program} {source output file : Path} {base : String}
    (hpath : p.path = file)
    (hbase : (output.join ((file.stripLead? source).getD file).text).text = base) :
    reportBase p source output = ⟨base⟩ := by
  rw [reportBase, hpath]
  exact congrArg Path.mk hbase

section Reading

variable {now : Timestamp} {p : Program} {base : Path}

/-- A file with a place of its own is as it was when a program has been written about. -/
theorem readText_beside {file : Path} {text : String} (h : d.Writes (outputs c now p base) d')
    (hread : d.readText file = .ok text)
    (hplace : ((products c).filter fun x => d.placeOf (base.withExtension x.extension) =
      d.placeOf file) = []) :
    d'.readText file = .ok text := by
  rw [outputs_eq] at h
  refine h.readText_kept hread ?_
  rw [Disk.lastAt_map, hplace]
  rfl

/-- What is written about a program can be read if nothing else is written to its place. -/
theorem readText_output {x : Product} (hx : x ∈ products c) (h : d.Writes (outputs c now p base) d')
    (hplace : ((products c).filter fun y =>
      d.placeOf (base.withExtension y.extension) =
        d.placeOf (base.withExtension x.extension)) = [x]) :
    d'.readText (base.withExtension x.extension) = .ok (x.text c now p) := by
  rw [outputs_eq] at h
  obtain ⟨last, hlast, hread⟩ := h.readText (List.mem_map_of_mem hx)
  rw [Disk.lastAt_map, hplace] at hlast
  rw [hread, ← Option.some.inj hlast]
  rfl

end Reading

/-- A disk takes what is written about a program: the folder is there,
and the files can be written. -/
structure TakesOutputs (c : Config) (d : Disk) (base : Path) : Prop where
  folder : ∃ parent place, base.parent? = some parent ∧ Disk.withoutEndSlash parent = parent ∧
    d.locate parent = .ok (.folder place)
  files : ∀ x ∈ products c, d.Writable (base.withExtension x.extension) = true

namespace TakesOutputs

variable {base : Path}

theorem of_parent {parent : String} {place : List String}
    (hparent : base.parent?.map Path.text = some parent)
    (hslash : (Disk.withoutEndSlash ⟨parent⟩).text = parent)
    (hfolder : d.locate ⟨parent⟩ = .ok (.folder place))
    (hproducts : ∀ x ∈ products c, d.Writable (base.withExtension x.extension) = true) :
    TakesOutputs c d base := by
  obtain ⟨⟨text⟩, hfound, rfl⟩ := Option.map_eq_some_iff.mp hparent
  exact ⟨⟨⟨text⟩, place, hfound, congrArg Path.mk hslash, hfolder⟩, hproducts⟩

/-- What could be written can be written when other files have been. -/
theorem kept (h : TakesOutputs c d base) (hwrite : writeAll log d = .done () d') :
    TakesOutputs c d' base := by
  obtain ⟨⟨parent, place, hparent, hslash, hfolder⟩, hproducts⟩ := h
  have hgrows := (writes_of_writeAll hwrite).grows
  refine ⟨⟨parent, place, hparent, hslash, hgrows.locate_folder hfolder⟩, fun x hx => ?_⟩
  exact writable_of_writeAll hwrite (hproducts x hx)

end TakesOutputs

/-- A program is written about on a disk that takes it, and the disk goes on taking others. -/
theorem exists_writeOutputs (now : Timestamp) {output source base : Path} {p : Program}
    (hbase : reportBase p source output = base) (h : TakesOutputs c d base) :
    ∃ d', writeOutputs c now output p source d = .done () d' ∧ d.Writes (outputs c now p base) d' ∧
      ∀ other, TakesOutputs c d other → TakesOutputs c d' other := by
  subst hbase
  obtain ⟨⟨parent, place, hparent, hslash, hfolder⟩, hproducts⟩ := h
  have hwritable : ∀ e ∈ outputs c now p (reportBase p source output), d.Writable e.1 := by
    intro e he
    rw [outputs_eq] at he
    obtain ⟨x, hx, rfl⟩ := List.mem_map.mp he
    simpa only using hproducts x hx
  obtain ⟨d', hwrites⟩ := exists_writeAll hwritable
  have hcreate : Outcome.createFolders "" parent d = .done () d := by
    rw [Outcome.createFolders, Disk.createFolders_of_locate hslash hfolder]
  refine ⟨d', ?_, writes_of_writeAll hwrites, fun other hother => hother.kept hwrites⟩
  rw [writeOutputs, hparent, Outcome.andThen_eq_done]
  exact ⟨(), d, hcreate, hwrites⟩

/-- The report and the graphs of a program are all that is written about it. -/
theorem wrote_writeOutputs (c : Config) (now : Timestamp) (output : Path) :
    Wrote (writeOutputs c now output)
      fun p source => outputs c now p (reportBase p source output) := by
  intro p source d d' h
  rw [writeOutputs, Outcome.andThen_eq_done] at h
  obtain ⟨_, mid, hfolder, hwrites⟩ := h
  refine .folders ?_ (writes_of_writeAll hwrites)
  cases hparent : (reportBase p source output).parent? with
  | none =>
    simp only [hparent] at hfolder
    obtain ⟨-, rfl⟩ := Outcome.done_inj.mp hfolder
    exact .refl d
  | some parent =>
    simp only [hparent] at hfolder
    exact Outcome.addsFolders_of_createFolders hfolder

/-- A run that writes ends with the tally of its turns. -/
theorem exists_analyze {now : Timestamp} (source folder : Option Path) {mid : Disk}
    {turns : List Turn}
    (hfolder : Outcome.createFolders "output directory " (folder.getD c.project.docsDir) d =
      .done () mid)
    (hrun : SourcesRun c (writeOutputs c now (folder.getD c.project.docsDir))
      (sourcesOf c source) mid turns d') :
    ∃ s, analyze c now source folder d = .done s d' ∧ Tallies c turns s := by
  refine ⟨turns.foldl (Summary.addTurn c) {}, ?_, tallies_foldl turns⟩
  rw [analyze]
  exact Outcome.andThen_eq_done.mpr
    ⟨(), mid, hfolder, analyzeSources_eq_done.mpr ⟨turns, hrun, rfl⟩⟩

end Outputs

end Project
end AspAtlas
