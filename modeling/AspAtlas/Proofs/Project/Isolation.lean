import AspAtlas.Proofs.Program.Places
import AspAtlas.Proofs.Project.Run
import AspAtlas.Proofs.Reader.Independence
/-!
How far the programs of a run are apart. What comes of a program depends on its include closure
only, as it is at the turn of the program; a run that writes reports can change that for programs
whose turn comes later.
-/
namespace AspAtlas.Project

variable {c : Config} {use : Program → Path → Disk → Outcome Unit} {sources : List Path}
    {d d' : Disk}
  {turns : List Turn} {s : Summary}

/-- A program is there exactly if its file could be loaded. -/
theorem isOk_analyzeFile (d : Disk) (file : Path) (sourceRoot : Option Path) :
    (analyzeFile c d file sourceRoot).isOk = (Program.load d.fileSystem file c.analysis).isOk := by
  rw [analyzeFile]
  cases Program.load d.fileSystem file c.analysis <;> rfl

theorem analyzeFile_alike {R : IoCause → IoCause → Prop} {e : Disk} {file : Path}
    (h : FileSystem.Agree R c.analysis.maxFileSize file d.fileSystem e.fileSystem)
    (sourceRoot : Option Path) :
    SameBut (Error.Alike R) (analyzeFile c d file sourceRoot) (analyzeFile c e file sourceRoot) :=
  (Program.load_alike h).map _

/-- A use of programs that leaves the disk alone. -/
def Idle (use : Program → Path → Disk → Outcome Unit) : Prop :=
  ∀ p source d, use p source d = .done () d

/-- The turns that a source folder gives as long as nothing is written. -/
def turnsIn (c : Config) (d : Disk) (source : Path) : List Turn :=
  let files := (discover c d source).toOption.getD []
  files.map fun file => ⟨source, if 1 < files.length then some source else none, file, d⟩

section Idle

variable {source : Path} {sourceRoot : Option Path} {files : List Path}

theorem Turn.Leaves.of_idle (hidle : Idle use) {t : Turn} (h : t.Leaves c use d') :
    d' = t.disk := by
  cases h with
  | analyzed _ huse =>
    rw [hidle] at huse
    exact (Outcome.done_inj.mp huse).2.symm
  | failed _ => rfl

theorem Turn.leaves_of_idle (hidle : Idle use) (t : Turn) : t.Leaves c use t.disk := by
  cases h : t.outcome c with
  | ok p => exact .analyzed h (hidle p t.source t.disk)
  | error e => exact .failed h

theorem FilesRun.of_idle (hidle : Idle use)
    (h : FilesRun c use source sourceRoot files d turns d') :
    d' = d ∧ turns = files.map fun file => ⟨source, sourceRoot, file, d⟩ := by
  induction h with
  | nil => exact ⟨rfl, rfl⟩
  | cons h _ ih =>
    obtain rfl := h.of_idle hidle
    obtain ⟨rfl, rfl⟩ := ih
    exact ⟨rfl, rfl⟩

theorem filesRun_of_idle (hidle : Idle use) (files : List Path) :
    FilesRun c use source sourceRoot files d
      (files.map fun file => ⟨source, sourceRoot, file, d⟩) d := by
  induction files with
  | nil => exact .nil
  | cons file files ih => exact .cons (Turn.leaves_of_idle hidle ⟨source, sourceRoot, file, d⟩) ih

/-- When programs are put to an idle use, every turn finds the disk as it was at first. -/
theorem SourcesRun.of_idle (hidle : Idle use) (h : SourcesRun c use sources d turns d') :
    d' = d ∧ turns = (sources.filter d.isPresent).flatMap (turnsIn c d) := by
  induction h with
  | nil => exact ⟨rfl, rfl⟩
  | missing h _ ih =>
    obtain ⟨rfl, rfl⟩ := ih
    exact ⟨rfl, by rw [List.filter_cons_of_neg (by simp [h])]⟩
  | present h hfound hturns _ ih =>
    obtain ⟨rfl, rfl⟩ := hturns.of_idle hidle
    obtain ⟨rfl, rfl⟩ := ih
    refine ⟨rfl, ?_⟩
    rw [List.filter_cons_of_pos h, List.flatMap_cons, turnsIn, hfound]
    rfl

theorem sourcesRun_of_idle (hidle : Idle use)
    (hfound : ∀ source ∈ sources, d.isPresent source = true → ∃ files,
      discover c d source = .ok files) :
    SourcesRun c use sources d ((sources.filter d.isPresent).flatMap (turnsIn c d)) d := by
  induction sources with
  | nil => exact .nil
  | cons source sources ih =>
    obtain ⟨hfirst, hrest⟩ := List.forall_mem_cons.mp hfound
    cases h : d.isPresent source with
    | false =>
      rw [List.filter_cons_of_neg (by simp [h])]
      exact .missing h (ih hrest)
    | true =>
      obtain ⟨files, hfiles⟩ := hfirst h
      rw [List.filter_cons_of_pos h, List.flatMap_cons, turnsIn, hfiles]
      exact .present h hfiles (filesRun_of_idle hidle files) (ih hrest)

/-- A run whose use of programs is idle comes to an end if files can be found. -/
theorem exists_analyzeSources_of_idle (hidle : Idle use)
    (hfound : ∀ source ∈ sources, d.isPresent source = true → ∃ files,
      discover c d source = .ok files) :
    ∃ s, analyzeSources c use sources {} d = .done s d :=
  ⟨_, analyzeSources_eq_done.mpr ⟨_, sourcesRun_of_idle hidle hfound, rfl⟩⟩

end Idle

/-- At its turn, a program is read from what was there when the run began. -/
def Turn.Kept (c : Config) (d : Disk) (t : Turn) : Prop :=
  FileSystem.Agree Eq c.analysis.maxFileSize t.file d.fileSystem t.disk.fileSystem

/-- A program is read from what was there at first if its include closure could be read, and nothing
has been written to a place in it by then. -/
theorem SourcesRun.kept {texts : Program → Path → List (Path × String)} (huse : Wrote use texts)
    (h : SourcesRun c use sources d turns d') {before behind : List Turn} {t : Turn}
    (ht : turns = before ++ t :: behind) {text : String} (htext : d.readText t.file = .ok text)
    (hclosure : ∀ p, (d.reader c.analysis.maxFileSize).Closure t.file text p →
      (∃ found, d.readText p = .ok found) ∧
        d.lastAt (before.flatMap (Turn.written c texts)) (d.placeOf p) = none) :
    t.Kept c d := by
  have hwrites := (h.writes huse).2 before t behind ht
  have hsame {p : Path} (hp : (d.reader c.analysis.maxFileSize).Closure t.file text p) :
      SameBut Eq (d.fileSystem.read p) (t.disk.fileSystem.read p) := by
    obtain ⟨⟨found, hfound⟩, hnone⟩ := hclosure p hp
    have hread : d.fileSystem.read p = .ok found := hfound
    have hagain : t.disk.fileSystem.read p = .ok found := hwrites.readText_kept hfound hnone
    rw [hread, hagain]
    exact .ok found
  have hroot := hsame .root
  refine ⟨?_, hroot, fun found hfound p hp => ?_⟩
  · have hfile := Disk.isFile_of_read htext
    have hfile' := Disk.isFile_of_read (hroot.ok_iff.mp htext)
    rw [hwrites.grows.placeOf] at hfile'
    exact hfile.trans hfile'.symm
  · obtain rfl : text = found := Except.ok.inj (htext.symm.trans hfound)
    exact hsame hp

/-- Programs that are read alike at first are alike at their turns, if neither run has meddled with
them. -/
theorem Turn.outcome_alike {R : IoCause → IoCause → Prop} (hR : Equivalence R) {d e : Disk}
    {t t' : Turn} (hfile : t.file = t'.file) (hroot : t.sourceRoot = t'.sourceRoot)
    (hagree : FileSystem.Agree R c.analysis.maxFileSize t.file d.fileSystem e.fileSystem)
    (ht : t.Kept c d) (ht' : t'.Kept c e) :
    SameBut (Error.Alike R) (t.outcome c) (t'.outcome c) := by
  rw [Turn.Kept, ← hfile] at ht'
  have hsame : ∀ cause cause', cause = cause' → R cause cause' := by
    rintro cause _ rfl
    exact hR.refl cause
  have hfirst := (ht.symm fun _ _ => Eq.symm).mono hsame
  have hlast := ht'.mono hsame
  have htrans : ∀ cause cause' cause'', R cause cause' → R cause' cause'' → R cause cause'' :=
    fun _ _ _ => hR.trans
  have hturns := (hfirst.trans htrans hagree).trans htrans hlast
  rw [Turn.outcome, Turn.outcome, ← hfile, ← hroot]
  exact analyzeFile_alike hturns t.sourceRoot

/-- What comes of the programs of a run depends on their include closures only. A run takes its
turns over the files that are found, and tells those that could be loaded from the others; as long
as nothing is written, each is read from the disk as it was at first. A use that writes leaves a
program as it was if its closure could be read and is written nowhere. Programs of two runs that are
left as they were, and that are read alike at first, are alike. -/
theorem analyzeSources_isolated (h : analyzeSources c use sources {} d = .done s d') :
    ∃ turns, SourcesRun c use sources d turns d' ∧ Tallies c turns s ∧
      (∀ t : Turn, (t.outcome c).isOk = (Program.load t.disk.fileSystem t.file c.analysis).isOk) ∧
      (Idle use → d' = d ∧ turns = (sources.filter d.isPresent).flatMap (turnsIn c d) ∧
        ∀ t ∈ turns, t.Kept c d) ∧
      (∀ texts, Wrote use texts → ∀ before t behind text, turns = before ++ t :: behind →
        d.readText t.file = .ok text →
        (∀ p, (d.reader c.analysis.maxFileSize).Closure t.file text p →
          (∃ found, d.readText p = .ok found) ∧
            d.lastAt (before.flatMap (Turn.written c texts)) (d.placeOf p) = none) →
        t.Kept c d) ∧
      ∀ use' sources' e e' others, SourcesRun c use' sources' e others e' → ∀ R, Equivalence R →
        ∀ t ∈ turns, ∀ t' ∈ others, t.Kept c d → t'.Kept c e → t.file = t'.file →
          t.sourceRoot = t'.sourceRoot →
          FileSystem.Agree R c.analysis.maxFileSize t.file d.fileSystem e.fileSystem →
          SameBut (Error.Alike R) (t.outcome c) (t'.outcome c) := by
  obtain ⟨turns, hturns, htallies⟩ := exists_turns h
  refine ⟨turns, hturns, htallies, fun t => isOk_analyzeFile t.disk t.file t.sourceRoot, ?_, ?_, ?_⟩
  · intro hidle
    obtain ⟨rfl, hall⟩ := hturns.of_idle hidle
    refine ⟨rfl, hall, fun t ht => ?_⟩
    rw [hall] at ht
    obtain ⟨source, -, ht⟩ := List.mem_flatMap.mp ht
    obtain ⟨file, -, rfl⟩ := List.mem_map.mp ht
    exact FileSystem.Agree.refl (fun _ => rfl) _
  · intro texts huse before t behind text ht htext hclosure
    exact hturns.kept huse ht htext hclosure
  · intro use' sources' e e' others _ R hR t _ t' _ ht ht' hfile hroot hagree
    exact Turn.outcome_alike hR hfile hroot hagree ht ht'

section Sharing

open ProgramReader

/-- A program fails if something in its include closure is no program. -/
theorem analyzeFile_eq_error {file q : Path} {text t : String} (sourceRoot : Option Path)
    (htext : d.readText file = .ok text)
    (hq : (d.reader c.analysis.maxFileSize).Closure file text q)
    (ht : d.readText q = .ok t) (hrefused : (parseItems q t).isOk = false) :
    ∃ e, analyzeFile c d file sourceRoot = .error e := by
  have hok := isOk_analyzeFile (c := c) d file sourceRoot
  cases hload : Program.load d.fileSystem file c.analysis with
  | ok p =>
    obtain ⟨items, hparse⟩ := p.accepts_of_load d.fileSystem_readsAlike hload htext hq ht
    simp [hparse, Except.isOk, Except.toBool] at hrefused
  | error e =>
    rw [hload] at hok
    cases hfile : analyzeFile c d file sourceRoot with
    | ok p => simp [hfile, Except.isOk, Except.toBool] at hok
    | error e => exact ⟨e, rfl⟩

/-- A source folder with a text as one program, and another program that
includes a graph beside it. -/
def sharing (text : String) : Disk where
  entries := .ofList
    [(["src"], .folder), (["src", "a.lp"], .file text.toUTF8),
      (["src", "a.rdg.dot"], .file "x.".toUTF8),
      (["src", "b.lp"], .file "#include \"a.rdg.dot\".".toUTF8)]

theorem discover_sharing : discover {} (sharing "") ⟨"src"⟩ = .ok [⟨"src/a.lp"⟩, ⟨"src/b.lp"⟩] ∧
    discover {} (sharing "a") ⟨"src"⟩ = .ok [⟨"src/a.lp"⟩, ⟨"src/b.lp"⟩] := by
  constructor
  all_goals
    exact discover_of_sorted ["src/a.lp", "src/b.lp"] (by decide +kernel) (by decide +kernel)

def sharedFiles : List (Path × String) :=
  [(⟨"src/b.lp"⟩, "#include \"a.rdg.dot\"."), (⟨"src/a.rdg.dot"⟩, "x.")]

theorem sharedFiles_isClosed : isClosed sharedFiles = true := by
  decide +kernel

theorem sharing_readable (text : String) :
    (∀ e ∈ sharedFiles, (sharing text).fileSystem.read e.1 = .ok e.2) ∧
      ∀ e ∈ sharedFiles, e.2.utf8ByteSize ≤ 1048576 := by
  constructor
  · simp only [sharedFiles, List.forall_mem_cons]
    exact ⟨rfl, rfl, List.forall_mem_nil _⟩
  · decide

/-- The other program can be loaded. -/
theorem analyzeFile_sharing (text : String) :
    ∃ p, analyzeFile {} (sharing text) ⟨"src/b.lp"⟩ (some ⟨"src"⟩) = .ok p := by
  obtain ⟨hread, hsize⟩ := sharing_readable text
  obtain ⟨source, -, hsource⟩ :=
    exists_load_of_isClosed sharedFiles_isClosed List.mem_cons_self hread hsize rfl
  have hfile := hread _ List.mem_cons_self
  have hfits := hsize _ List.mem_cons_self
  have hloaded : ∃ p, Program.load (sharing text).fileSystem ⟨"src/b.lp"⟩ {} = .ok p :=
    Program.exists_load rfl rfl hfile hfits hsource
  obtain ⟨p, hload⟩ := hloaded
  rw [analyzeFile, hload]
  exact ⟨_, rfl⟩

/-- The other program is read alike, whatever the first one is. -/
theorem agree_sharing (text text' : String) : FileSystem.Agree Eq 1048576 ⟨"src/b.lp"⟩
    (sharing text).fileSystem (sharing text').fileSystem := by
  obtain ⟨hread, hsize⟩ := sharing_readable text
  obtain ⟨hread', -⟩ := sharing_readable text'
  have hroot : (⟨"src/b.lp"⟩, "#include \"a.rdg.dot\".") ∈ sharedFiles := List.mem_cons_self
  have hsame : ∀ e ∈ sharedFiles,
      SameBut Eq ((sharing text).fileSystem.read e.1) ((sharing text').fileSystem.read e.1) := by
    intro e he
    rw [hread e he, hread' e he]
    exact .ok e.2
  refine ⟨rfl, hsame _ hroot, fun found hfound p hp => ?_⟩
  obtain rfl := Except.ok.inj ((hread _ hroot).symm.trans hfound)
  obtain ⟨t, ht⟩ := mem_of_isClosed sharedFiles_isClosed hroot
    (holds_of_files (sharing text).fileSystem_readsAlike hroot hread hsize) hp
  simpa only using hsame _ ht

/-- A program that ends without a dot cannot be read. -/
theorem analyzeFile_broken :
    ∃ e, analyzeFile {} (sharing "a") ⟨"src/a.lp"⟩ (some ⟨"src"⟩) = .error e := by
  have hread : (sharing "a").readText ⟨"src/a.lp"⟩ = .ok "a" := rfl
  exact analyzeFile_eq_error (some ⟨"src"⟩) hread .root hread (by decide +kernel)

/-- The turns of the two programs. -/
def sharingTurns (d mid : Disk) : List Turn :=
  [⟨⟨"src"⟩, some ⟨"src"⟩, ⟨"src/a.lp"⟩, d⟩, ⟨⟨"src"⟩, some ⟨"src"⟩, ⟨"src/b.lp"⟩, mid⟩]

theorem sourcesRun_sharing {mid : Disk} (hpresent : d.isPresent ⟨"src"⟩ = true)
    (hfound : discover {} d ⟨"src"⟩ = .ok [⟨"src/a.lp"⟩, ⟨"src/b.lp"⟩])
    (ha : Turn.Leaves {} use ⟨⟨"src"⟩, some ⟨"src"⟩, ⟨"src/a.lp"⟩, d⟩ mid)
    (hb : Turn.Leaves {} use ⟨⟨"src"⟩, some ⟨"src"⟩, ⟨"src/b.lp"⟩, mid⟩ d') :
    SourcesRun {} use [⟨"src"⟩] d (sharingTurns d mid) d' :=
  .present hpresent hfound (.cons ha (.cons hb .nil)) .nil

/-- As long as nothing is written, a broken program leaves the other one as it is. -/
theorem analyzeSources_isolated_of_broken :
    ∃ s, analyzeSources {} (fun _ _ d => .done () d) [⟨"src"⟩] {} (sharing "a") =
        .done s (sharing "a") ∧
      s.analyzed = [⟨"src/b.lp"⟩] ∧ s.failed.map Prod.fst = [⟨"src/a.lp"⟩] ∧
      analyzeFile {} (sharing "a") ⟨"src/b.lp"⟩ (some ⟨"src"⟩) =
        analyzeFile {} (sharing "") ⟨"src/b.lp"⟩ (some ⟨"src"⟩) := by
  have hidle : Idle fun _ _ d => .done () d := fun _ _ _ => rfl
  obtain ⟨hfound, hfound'⟩ := discover_sharing
  have hother := sourcesRun_sharing rfl hfound (Turn.leaves_of_idle hidle _)
    (Turn.leaves_of_idle hidle _)
  have hfiles : ∀ source ∈ [(⟨"src"⟩ : Path)], (sharing "a").isPresent source = true →
      ∃ files, discover {} (sharing "a") source = .ok files := by
    simp [hfound']
  obtain ⟨s, hdone⟩ := exists_analyzeSources_of_idle hidle hfiles
  obtain ⟨turns, -, htallies, -, hkept, -, halike⟩ := analyzeSources_isolated hdone
  obtain ⟨-, hturns, hkept⟩ := hkept hidle
  have hpresent : (sharing "a").isPresent ⟨"src"⟩ = true := rfl
  obtain rfl : turns = sharingTurns (sharing "a") (sharing "a") := by
    rw [hturns]
    simp [hpresent, turnsIn, hfound', sharingTurns, Except.toOption]
  obtain ⟨e, he⟩ := analyzeFile_broken
  obtain ⟨p, hp⟩ := analyzeFile_sharing "a"
  refine ⟨s, hdone, ?_, ?_, ?_⟩
  · rw [htallies.analyzed]
    simp [sharingTurns, Turn.program?, Turn.outcome, hp, he, Except.toOption]
  · rw [htallies.failed]
    simp [sharingTurns, Turn.failure?, Turn.outcome, hp, he]
  · have hlast (text : String) : (⟨⟨"src"⟩, some ⟨"src"⟩, ⟨"src/b.lp"⟩, sharing text⟩ : Turn) ∈
        sharingTurns (sharing text) (sharing text) := List.mem_cons_of_mem _ List.mem_cons_self
    have hsame := halike _ _ _ _ _ hother Eq eq_equivalence _ (hlast "a") _ (hlast "")
      (hkept _ (hlast "a")) (FileSystem.Agree.refl (fun _ => rfl) _) rfl rfl (agree_sharing "a" "")
    exact hsame.eq fun _ _ => Error.Alike.eq

theorem reportBase_sharing :
    ((⟨"src"⟩ : Path).join
      (((⟨"src/a.lp"⟩ : Path).stripLead? ⟨"src"⟩).getD ⟨"src/a.lp"⟩).text).text =
        "src/a.lp" ∧
      ((⟨"src"⟩ : Path).join
        (((⟨"src/b.lp"⟩ : Path).stripLead? ⟨"src"⟩).getD ⟨"src/b.lp"⟩).text).text = "src/b.lp" := by
  decide +kernel

theorem takesOutputs_sharing :
    TakesOutputs {} (sharing "") ⟨"src/a.lp"⟩ ∧ TakesOutputs {} (sharing "a") ⟨"src/b.lp"⟩ := by
  have hparents : (⟨"src/a.lp"⟩ : Path).parent?.map Path.text = some "src" ∧
      (⟨"src/b.lp"⟩ : Path).parent?.map Path.text = some "src" := by
    decide +kernel
  constructor
  · exact .of_parent hparents.1 (by decide +kernel) rfl (by decide +kernel)
  · exact .of_parent hparents.2 (by decide +kernel) rfl (by decide +kernel)

/-- An empty program has an empty graph, which is no program. -/
theorem analyzeFile_empty : ∃ p, analyzeFile {} (sharing "") ⟨"src/a.lp"⟩ (some ⟨"src"⟩) = .ok p ∧
    (parseItems ⟨"src/a.rdg.dot"⟩ (dotOf p .statement)).isOk = false := by
  have hread : (sharing "").fileSystem.read ⟨"src/a.lp"⟩ = .ok "" := rfl
  have hprogram : (Program.ofSource ⟨⟨"src/a.lp"⟩, [], [.ofText ⟨"src/a.lp"⟩ ""]⟩
      {}).toOption.map (fun p =>
      (parseItems ⟨"src/a.rdg.dot"⟩ (dotOf (p.qualify ⟨"src"⟩) .statement)).isOk) = some false := by
    decide +kernel
  obtain ⟨p, hp, hrefused⟩ := exists_ok_of_toOption hprogram
  refine ⟨p.qualify ⟨"src"⟩, ?_, hrefused⟩
  rw [analyzeFile, Program.load_of_empty rfl hread, hp]
  rfl

/-- Once the graph of the empty program is written, the other program cannot be read any more. -/
theorem analyzeFile_fails_of_writes {now : Timestamp} {p : Program}
    (hrefused : (parseItems ⟨"src/a.rdg.dot"⟩ (dotOf p .statement)).isOk = false)
    (hwrites : (sharing "").Writes (outputs {} now p ⟨"src/a.lp"⟩) d') :
    ∃ e, analyzeFile {} d' ⟨"src/b.lp"⟩ (some ⟨"src"⟩) = .error e := by
  have hplaces :
      ((products {}).filter fun x => (sharing "").placeOf
        ((⟨"src/a.lp"⟩ : Path).withExtension x.extension) =
        (sharing "").placeOf ⟨"src/b.lp"⟩) = [] ∧
      ((products {}).filter fun x => (sharing "").placeOf
        ((⟨"src/a.lp"⟩ : Path).withExtension x.extension) =
        (sharing "").placeOf ⟨"src/a.rdg.dot"⟩) = [.graph .statement] := by
    decide +kernel
  obtain ⟨hprogram, hgraph⟩ := hplaces
  have hroot : d'.readText ⟨"src/b.lp"⟩ = .ok "#include \"a.rdg.dot\"." :=
    readText_beside hwrites rfl hprogram
  have hpath : (⟨"src/a.lp"⟩ : Path).withExtension (Product.graph .statement).extension =
      ⟨"src/a.rdg.dot"⟩ := congrArg Path.mk (by decide +kernel)
  have hdot : d'.readText ⟨"src/a.rdg.dot"⟩ = .ok (dotOf p .statement) := by
    rw [← hpath] at hgraph ⊢
    exact readText_output (by decide) hwrites hgraph
  refine analyzeFile_eq_error (some ⟨"src"⟩) hroot ?_ hdot hrefused
  exact Closure.of_target "a.rdg.dot" .root (.root rfl) (by decide +kernel) (by decide +kernel)

/-- What is written about one program can decide whether another one can be read, though the other
does not include it. -/
theorem analyze_breaks_later_program :
    FileSystem.Agree Eq 1048576 ⟨"src/b.lp"⟩ (sharing "").fileSystem (sharing "a").fileSystem ∧
      discover {} (sharing "") ⟨"src"⟩ = discover {} (sharing "a") ⟨"src"⟩ ∧
      ∃ s s' d d', analyze {} .epoch (some ⟨"src"⟩) (some ⟨"src"⟩) (sharing "") = .done s d ∧
        analyze {} .epoch (some ⟨"src"⟩) (some ⟨"src"⟩) (sharing "a") = .done s' d' ∧
        s.analyzed = [⟨"src/a.lp"⟩] ∧ s'.analyzed = [⟨"src/b.lp"⟩] := by
  obtain ⟨hfound, hfound'⟩ := discover_sharing
  refine ⟨agree_sharing "" "a", hfound.trans hfound'.symm, ?_⟩
  have hfolder (text : String) : Outcome.createFolders "output directory " ⟨"src"⟩ (sharing text) =
      .done () (sharing text) := rfl
  obtain ⟨p, hp, hrefused⟩ := analyzeFile_empty
  obtain ⟨hbase, hbase'⟩ := reportBase_sharing
  obtain ⟨mid, hdone, hwrites, -⟩ :=
    exists_writeOutputs .epoch (reportBase_eq (path_of_analyzeFile hp) hbase) takesOutputs_sharing.1
  obtain ⟨e, he⟩ := analyzeFile_fails_of_writes hrefused hwrites
  have hrun := sourcesRun_sharing rfl hfound (.analyzed hp hdone) (.failed he)
  obtain ⟨s, hs, htallies⟩ := exists_analyze (some ⟨"src"⟩) (some ⟨"src"⟩) (hfolder "") hrun
  obtain ⟨e', he'⟩ := analyzeFile_broken
  obtain ⟨p', hp'⟩ := analyzeFile_sharing "a"
  obtain ⟨d', hdone', -⟩ :=
    exists_writeOutputs .epoch
      (reportBase_eq (path_of_analyzeFile hp') hbase') takesOutputs_sharing.2
  have hrun' := sourcesRun_sharing rfl hfound' (.failed he') (.analyzed hp' hdone')
  obtain ⟨s', hs', htallies'⟩ := exists_analyze (some ⟨"src"⟩) (some ⟨"src"⟩) (hfolder "a") hrun'
  refine ⟨s, s', _, _, hs, hs', ?_, ?_⟩
  · rw [htallies.analyzed]
    simp [sharingTurns, Turn.program?, Turn.outcome, hp, he, Except.toOption]
  · rw [htallies'.analyzed]
    simp [sharingTurns, Turn.program?, Turn.outcome, hp', he', Except.toOption]

end Sharing

end AspAtlas.Project
