import AspAtlas.Proofs.Disk.Places
import AspAtlas.Proofs.Program.Agreement
import Mathlib.Data.List.Pairwise
/-!
How often a file on a disk is read. A reader takes a file once for each way in which the components
of its path are spelled. That is once for each file as long as includes go down, but an include that
goes up again can lead to a file that was read already.
-/
namespace AspAtlas

open Surface (Item)

/-- An include that leads into the folder of the including file or below it. -/
def GoesDown (file : Path) (target : String) : Prop :=
  ∃ name names, (resolveInclude file target).components =
    file.components.dropLast ++ (name :: names).map .name

/-- A target that is spelled with names only. -/
def isNamesOnly (target : String) : Bool :=
  !(Path.componentsOf target.toList).isEmpty &&
    (Path.componentsOf target.toList).all fun c => c.text?.isSome

theorem names_of_all {components : List Component}
    (h : components.all (fun c => c.text?.isSome) = true) :
    ∃ names : List String, components = names.map .name := by
  induction components with
  | nil => exact ⟨[], rfl⟩
  | cons c rest ih =>
    rw [List.all_cons, Bool.and_eq_true] at h
    obtain ⟨names, hnames⟩ := ih h.2
    cases c with
    | name text => exact ⟨text :: names, by rw [hnames, List.map_cons]⟩
    | root | current | parent => cases h.1

/-- Behind a slash, a text that is spelled with names only has the same components. -/
theorem Path.inner_of_names {cs : List Char} {names : List String}
    (h : componentsOf cs = names.map .name) : cs.head? ≠ some '/' ∧ inner cs = names.map .name := by
  cases cs with
  | nil => exact ⟨by simp, h⟩
  | cons c cs =>
    by_cases hc : c = '/'
    · subst hc
      rw [componentsOf_slash] at h
      cases names with
      | nil => cases h
      | cons name names => simp at h
    · refine ⟨by simpa using hc, ?_⟩
      obtain ⟨first, rest, hparts⟩ := exists_parts cs
      rw [componentsOf_cons hc hparts] at h
      by_cases hdot : c :: first = ['.']
      · rw [if_pos hdot] at h
        cases names with
        | nil => cases h
        | cons name names => simp at h
      · rw [if_neg hdot] at h
        rw [inner, parts_cons hc hparts, ← h]
        cases hpart : componentOf? (c :: first) with
        | none => simp [List.filterMap_cons_none hpart]
        | some component => simp [List.filterMap_cons_some hpart]

/-- Targets that are spelled with names only go down. -/
theorem goesDown_of_isNamesOnly {file : Path} {target : String} {name : String}
    (hfile : file.components.getLast? = some (.name name)) (h : isNamesOnly target = true) :
    GoesDown file target := by
  rw [isNamesOnly, Bool.and_eq_true] at h
  obtain ⟨names, hnames⟩ := names_of_all h.2
  cases names with
  | nil => simp [hnames] at h
  | cons first rest =>
    obtain ⟨hrelative, hinner⟩ := Path.inner_of_names hnames
    refine ⟨first, rest, ?_⟩
    have hparent : file.parent? ≠ none := by
      rw [Ne, Path.parent?_eq_none_iff]
      rintro (hnone | hroot)
      · simp [hnone] at hfile
      · simp [hroot] at hfile
    obtain ⟨parent, hparent⟩ := Option.ne_none_iff_exists'.mp hparent
    simp only [resolveInclude, hparent, Path.components_join, hrelative, false_or,
      Path.components_of_parent? hparent, hinner, hnames]
    split
    · rename_i habove
      rw [habove, List.nil_append]
    · rfl

theorem Disk.fileSystem_readsAlike (d : Disk) : d.fileSystem.ReadsAlike :=
  fun _ _ _ _ h hs ht => read_unique (placeOf_congr h) hs ht

/-- The reader of the files on a disk, up to a size. -/
abbrev Disk.reader (d : Disk) (size : Nat) : ProgramReader := ⟨d.fileSystem, size⟩

/-- No two files that were read stand at one place on a disk. -/
def ParsedSource.ReadsOnce (source : ParsedSource) (d : Disk) : Prop :=
  source.files.Pairwise fun f g => d.placeOf f.path ≠ d.placeOf g.path

theorem ParsedSource.ReadsOnce.eq_of_place {source : ParsedSource} {d : Disk}
    (h : source.ReadsOnce d) {f g : SourceFile} (hf : f ∈ source.files) (hg : g ∈ source.files)
    (hplace : d.placeOf f.path = d.placeOf g.path) : f = g := by
  have hsymm : Std.Symm fun f g : SourceFile => d.placeOf f.path ≠ d.placeOf g.path :=
    ⟨fun _ _ hne he => hne he.symm⟩
  by_contra hne
  exact h.forall hf hg hne hplace

namespace ProgramReader

variable {d : Disk} {r : ProgramReader} {size : Nat} {root : Path} {text : String}
    {source : ParsedSource}

/-- Whatever a root includes, directly or not, goes down from the file that includes it. -/
def IncludesGoDown (r : ProgramReader) (root : Path) (text : String) : Prop :=
  ∀ p t items target location, r.Closure root text p → r.Holds root text p t →
    parseItems p t = .ok items → .includes target location ∈ items → GoesDown p target

/-- When includes go down, everything in the closure stands in the
folder of the root or below it. -/
theorem down_of_closure {name : String} (hroot : root.components.getLast? = some (.name name))
    (hdown : r.IncludesGoDown root text) {p : Path} (hp : r.Closure root text p) :
    ∃ names, p.components = root.components.dropLast ++ names.map .name ∧ names ≠ [] := by
  induction hp with
  | root =>
    refine ⟨[name], ?_, List.cons_ne_nil _ _⟩
    exact (List.dropLast_append_getLast? _ hroot).symm
  | includes hp ht hparse hi ih =>
    obtain ⟨names, hnames, hne⟩ := ih
    obtain ⟨first, rest, htarget⟩ := hdown _ _ _ _ _ hp ht hparse hi
    refine ⟨names.dropLast ++ first :: rest, ?_, by simp⟩
    have hmapped : names.map Component.name ≠ [] := by simpa using hne
    rw [htarget, hnames, List.dropLast_append_of_ne_nil hmapped, List.append_assoc, List.map_append,
      List.map_dropLast]

/-- A file that was read is a file on the disk, at the place of its path. -/
theorem locate_of_mem_files (hread : d.fileSystem.read root = .ok text)
    (hsource : (d.reader size).readText root text = .ok source) {f : SourceFile}
    (hf : f ∈ source.files) : ∃ bytes, d.locate f.path = .ok (.file (d.placeOf f.path) bytes) := by
  obtain ⟨_, _, hspliced⟩ := exists_spliced hsource
  obtain ⟨others, hfiles, -⟩ := hspliced.files
  obtain ⟨t, items, ht, -⟩ := hspliced.statements f hf
  have hdistinct := hspliced.distinct
  rw [hfiles, List.pairwise_cons] at hdistinct
  rw [hfiles] at hf
  rcases List.mem_cons.mp hf with rfl | hf
  · obtain ⟨bytes, hlocate, -⟩ := Disk.locate_of_read hread
    exact ⟨bytes, hlocate⟩
  · cases ht with
    | root hp => exact absurd hp.symm (hdistinct.1 f hf)
    | read _ hread _ =>
      obtain ⟨bytes, hlocate, -⟩ := Disk.locate_of_read hread
      exact ⟨bytes, hlocate⟩

/-- No file is read twice exactly if no two spellings in the closure lead to one place. -/
theorem readsOnce_iff
    (hsource : (d.reader size).readText root text = .ok source) :
    source.ReadsOnce d ↔ ∀ p q, (d.reader size).Closure root text p →
      (d.reader size).Closure root text q → d.placeOf p = d.placeOf q →
        p.components = q.components := by
  obtain ⟨_, _, hspliced⟩ := exists_spliced hsource
  constructor
  · intro honce p q hp hq hplace
    obtain ⟨f, hf, hfp⟩ := exists_file_of_readsAlike d.fileSystem_readsAlike hsource hp
    obtain ⟨g, hg, hgq⟩ := exists_file_of_readsAlike d.fileSystem_readsAlike hsource hq
    rw [← hfp, ← hgq]
    rw [← Disk.placeOf_congr hfp, ← Disk.placeOf_congr hgq] at hplace
    rw [honce.eq_of_place hf hg hplace]
  · intro hspelled
    refine hspliced.distinct.imp_of_mem fun hf hg hne hplace => hne ?_
    exact hspelled _ _ (hspliced.inClosure _ hf) (hspliced.inClosure _ hg) hplace

/-- If no file is read twice, the statements at a place are those of the one file there. -/
theorem statements_of_readsOnce
    (hsource : (d.reader size).readText root text = .ok source)
    (honce : source.ReadsOnce d) {f : SourceFile} (hf : f ∈ source.files) :
    ∃ t items, (d.reader size).Holds root text f.path t ∧
      parseItems f.path t = .ok items ∧
      (source.nodes.filter fun n => d.placeOf n.location.file = d.placeOf f.path) =
        statementsOf items := by
  obtain ⟨_, _, hspliced⟩ := exists_spliced hsource
  obtain ⟨t, items, ht, -, hparse, hnodes, -⟩ := hspliced.statements f hf
  refine ⟨t, items, ht, hparse, ?_⟩
  rw [← hnodes]
  refine List.filter_congr fun n hn => ?_
  rw [Bool.eq_iff_iff, decide_eq_true_eq, Location.isIn_iff]
  constructor
  · intro hplace
    obtain ⟨g, hg, hfile⟩ := hspliced.located n hn
    rw [hfile] at hplace ⊢
    rw [honce.eq_of_place hg hf hplace]
  · exact Disk.placeOf_congr

/-- Includes go down when their targets are spelled with names only. -/
theorem includesGoDown_of_isNamesOnly (hread : d.fileSystem.read root = .ok text)
    (h : ∀ p t items target location, (d.reader size).Closure root text p →
      (d.reader size).Holds root text p t → parseItems p t = .ok items →
        .includes target location ∈ items → isNamesOnly target = true) :
    (d.reader size).IncludesGoDown root text := by
  intro p t items target location hp ht hparse hi
  have hlast : ∃ name, p.components.getLast? = some (.name name) := by
    cases ht with
    | root hp =>
      obtain ⟨bytes, hlocate, -⟩ := Disk.locate_of_read hread
      rw [hp]
      exact (Disk.locate_file hlocate).2.2
    | read _ hfound _ =>
      obtain ⟨bytes, hlocate, -⟩ := Disk.locate_of_read hfound
      exact (Disk.locate_file hlocate).2.2
  obtain ⟨name, hname⟩ := hlast
  exact goesDown_of_isNamesOnly hname (h p t items target location hp ht hparse hi)

/-- A reader of files on a disk takes each once for every spelling of its components. That is once
in all exactly if no two spellings that includes lead to are of one place, and it is if includes go
down; then the statements at each place are those of the file there. -/
theorem load_reads_each_spelling_once (d : Disk) (size : Nat) {root : Path} {source : ParsedSource}
    (h : (d.reader size).load root = .ok source) :
    ∃ text, d.fileSystem.read root = .ok text ∧
      (∀ f ∈ source.files, ∃ bytes, d.locate f.path = .ok (.file (d.placeOf f.path) bytes)) ∧
      (source.files.Pairwise fun f g => f.path.components ≠ g.path.components) ∧
      (source.ReadsOnce d ↔ ∀ p q, (d.reader size).Closure root text p →
        (d.reader size).Closure root text q → d.placeOf p = d.placeOf q →
          p.components = q.components) ∧
      ((d.reader size).IncludesGoDown root text → source.ReadsOnce d) ∧
      (source.ReadsOnce d → ∀ f ∈ source.files, ∃ t items,
        (d.reader size).Holds root text f.path t ∧
          parseItems f.path t = .ok items ∧
          (source.nodes.filter fun n => d.placeOf n.location.file = d.placeOf f.path) =
            statementsOf items) := by
  obtain ⟨-, text, hcontent, hsource⟩ := load_eq_ok_iff.mp h
  have hread : d.fileSystem.read root = .ok text := read_of_content hcontent
  have honce := readsOnce_iff hsource
  obtain ⟨_, _, hspliced⟩ := exists_spliced hsource
  obtain ⟨bytes, hlocate, -⟩ := Disk.locate_of_read hread
  obtain ⟨-, -, name, hroot⟩ := Disk.locate_file hlocate
  refine ⟨text, hread, fun f hf => locate_of_mem_files hread hsource hf,
    hspliced.distinct, honce, ?_, fun honce f hf => statements_of_readsOnce hsource honce hf⟩
  intro hdown
  rw [honce]
  intro p q hp hq hplace
  obtain ⟨names, hnames, -⟩ := down_of_closure hroot hdown hp
  obtain ⟨names', hnames', -⟩ := down_of_closure hroot hdown hq
  exact Disk.placeOf_down hnames hnames' hplace

/-- Texts on a disk that are closed under includes can be loaded from a regular file. -/
theorem exists_load_of_isClosed {files : List (Path × String)} (h : isClosed files = true)
    (hroot : (root, text) ∈ files) (hread : ∀ e ∈ files, d.fileSystem.read e.1 = .ok e.2)
    (hsize : ∀ e ∈ files, e.2.utf8ByteSize ≤ size) (hfile : d.isFile root = true) :
    ∃ source, (d.reader size).load root = .ok source ∧
      (d.reader size).readText root text = .ok source := by
  have hfiles := holds_of_files (r := d.reader size) d.fileSystem_readsAlike hroot hread hsize
  obtain ⟨source, hsource⟩ := readText_of_accepts fun _ => accepts_of_isClosed h hroot hfiles
  have hcontent : (d.reader size).content root = .ok text :=
    content_eq_ok_iff.mpr ⟨hread (root, text) hroot, hsize (root, text) hroot⟩
  exact ⟨source, load_eq_ok_iff.mpr ⟨hfile, text, hcontent, hsource⟩, hsource⟩

/-- A root that includes a file in a folder below. -/
def branch : Disk where
  entries := .ofList
    [(["main.lp"], .file "#include \"lib/x.lp\". b :- a.".toUTF8), (["lib"], .folder),
      (["lib", "x.lp"], .file "a.".toUTF8)]

def branchFiles : List (Path × String) :=
  [(⟨"main.lp"⟩, "#include \"lib/x.lp\". b :- a."), (⟨"lib/x.lp"⟩, "a.")]

theorem branchFiles_isClosed : isClosed branchFiles = true ∧ ∀ e ∈ branchFiles,
    (((parseItems e.1 e.2).toOption.map targetsOf).getD []).all isNamesOnly = true := by
  decide +kernel

/-- A file in a folder below the root is read once. -/
theorem load_reads_each_spelling_once_of_branch :
    ∃ source, (branch.reader 100).load ⟨"main.lp"⟩ = .ok source ∧ source.ReadsOnce branch := by
  have hroot : ((⟨"main.lp"⟩, "#include \"lib/x.lp\". b :- a.") : Path × String) ∈ branchFiles :=
    List.mem_cons_self
  have hread : ∀ e ∈ branchFiles, branch.fileSystem.read e.1 = .ok e.2 := by
    simp only [branchFiles, List.forall_mem_cons]
    exact ⟨rfl, rfl, List.forall_mem_nil _⟩
  have hsize : ∀ e ∈ branchFiles, e.2.utf8ByteSize ≤ 100 := by decide
  obtain ⟨hclosed, hnames⟩ := branchFiles_isClosed
  obtain ⟨source, hload, hsource⟩ := exists_load_of_isClosed hclosed hroot hread hsize rfl
  obtain ⟨text, htext, -, -, -, honce, -⟩ := load_reads_each_spelling_once branch 100 hload
  rw [hread _ hroot, Except.ok.injEq] at htext
  subst htext
  have hholds := holds_of_files
    (r := branch.reader 100) branch.fileSystem_readsAlike hroot hread hsize
  refine ⟨source, hload, honce (includesGoDown_of_isNamesOnly (hread _ hroot) ?_)⟩
  intro p t items target location hp ht hparse hi
  obtain ⟨s, hs⟩ := mem_of_isClosed hclosed hroot hholds hp
  obtain rfl := ht.unique (hholds _ hs)
  have htargets := hnames _ hs
  simp only [hparse, Except.toOption, Option.map_some, Option.getD_some,
    List.all_eq_true] at htargets
  exact htargets target (mem_targetsOf.mpr ⟨location, hi⟩)

/-- Two files in two folders that both include a third one beside the root. -/
def diamond : Disk where
  entries := .ofList
    [(["main.lp"], .file "#include \"a/x.lp\". #include \"b/y.lp\".".toUTF8), (["a"], .folder),
      (["a", "x.lp"], .file "#include \"../c.lp\".".toUTF8), (["b"], .folder),
      (["b", "y.lp"], .file "#include \"../c.lp\".".toUTF8), (["c.lp"], .file "c.".toUTF8)]

def diamondFiles : List (Path × String) :=
  [(⟨"main.lp"⟩, "#include \"a/x.lp\". #include \"b/y.lp\"."),
    (⟨"a/x.lp"⟩, "#include \"../c.lp\"."),
    (⟨"a/../c.lp"⟩, "c."), (⟨"b/y.lp"⟩, "#include \"../c.lp\"."), (⟨"b/../c.lp"⟩, "c.")]

theorem diamondFiles_isClosed : isClosed diamondFiles = true := by
  decide +kernel

/-- What the files of the diamond include, and where it leads. -/
theorem includes_diamond :
    (∀ target ∈ ["a/x.lp", "b/y.lp"],
      ((parseItems ⟨"main.lp"⟩ "#include \"a/x.lp\". #include \"b/y.lp\".").toOption.map
        targetsOf).any (target ∈ ·) = true) ∧
    (∀ name ∈ ["a/x.lp", "b/y.lp"],
      ((parseItems ⟨name⟩ "#include \"../c.lp\".").toOption.map targetsOf).any
      ("../c.lp" ∈ ·) = true) ∧
    (∀ e ∈ [("main.lp", "a/x.lp", "a/x.lp"), ("main.lp", "b/y.lp", "b/y.lp"),
        ("a/x.lp", "../c.lp", "a/../c.lp"), ("b/y.lp", "../c.lp", "b/../c.lp")],
      (resolveInclude ⟨e.1⟩ e.2.1).text = e.2.2) := by
  decide +kernel

theorem diamond_readable : (∀ e ∈ diamondFiles, diamond.fileSystem.read e.1 = .ok e.2) ∧
    ∀ e ∈ diamondFiles, e.2.utf8ByteSize ≤ 100 := by
  constructor
  · simp only [diamondFiles, List.forall_mem_cons]
    exact ⟨rfl, rfl, rfl, rfl, rfl, List.forall_mem_nil _⟩
  · decide

theorem closure_diamond : (diamond.reader 100).Closure ⟨"main.lp"⟩
      "#include \"a/x.lp\". #include \"b/y.lp\"." ⟨"a/../c.lp"⟩ ∧
    (diamond.reader 100).Closure ⟨"main.lp"⟩
      "#include \"a/x.lp\". #include \"b/y.lp\"." ⟨"b/../c.lp"⟩ := by
  obtain ⟨hread, hsize⟩ := diamond_readable
  have hholds := holds_of_files (r := diamond.reader 100) diamond.fileSystem_readsAlike
    List.mem_cons_self hread hsize
  simp only [List.forall_mem_cons] at hholds
  obtain ⟨hmain, hx, -, hy, -, -⟩ := hholds
  obtain ⟨hroot, hbelow, hpaths⟩ := includes_diamond
  simp only [List.forall_mem_cons] at hroot hbelow hpaths
  obtain ⟨hroota, hrootb, -⟩ := hroot
  obtain ⟨hxc, hyc, -⟩ := hbelow
  obtain ⟨ha, hb, hac, hbc, -⟩ := hpaths
  exact ⟨(Closure.root.of_target "a/x.lp" hmain hroota ha).of_target "../c.lp" hx hxc hac,
    (Closure.root.of_target "b/y.lp" hmain hrootb hb).of_target "../c.lp" hy hyc hbc⟩

/-- A file that two folders include by going up is read once for each of them. -/
theorem load_reads_shared_file_twice :
    ∃ source, (diamond.reader 100).load ⟨"main.lp"⟩ = .ok source ∧ ∃ f ∈ source.files,
      ∃ g ∈ source.files, f.path.components ≠ g.path.components ∧ ∃ bytes,
        diamond.locate f.path = .ok (.file ["c.lp"] bytes) ∧
          diamond.locate g.path = .ok (.file ["c.lp"] bytes) := by
  obtain ⟨hread, hsize⟩ := diamond_readable
  obtain ⟨source, hload, hsource⟩ :=
    exists_load_of_isClosed diamondFiles_isClosed List.mem_cons_self hread hsize rfl
  obtain ⟨ha, hb⟩ := closure_diamond
  obtain ⟨f, hf, hfa⟩ := exists_file_of_readsAlike diamond.fileSystem_readsAlike hsource ha
  obtain ⟨g, hg, hgb⟩ := exists_file_of_readsAlike diamond.fileSystem_readsAlike hsource hb
  have hplace : diamond.placeOf f.path = ["c.lp"] := by
    rw [Disk.placeOf_congr hfa]
    decide
  have hplace' : diamond.placeOf g.path = ["c.lp"] := by
    rw [Disk.placeOf_congr hgb]
    decide
  obtain ⟨bytes, hlocate⟩ := locate_of_mem_files rfl hsource hf
  obtain ⟨other, hlocate'⟩ := locate_of_mem_files rfl hsource hg
  rw [hplace] at hlocate
  rw [hplace'] at hlocate'
  have hsame : bytes = other := by
    obtain ⟨-, hentry, -⟩ := Disk.locate_file hlocate
    obtain ⟨-, hentry', -⟩ := Disk.locate_file hlocate'
    rw [hentry, Option.some.injEq, Entry.file.injEq] at hentry'
    exact hentry'
  subst hsame
  refine ⟨source, hload, f, hf, g, hg, ?_, bytes, hlocate, hlocate'⟩
  rw [hfa, hgb]
  decide

end ProgramReader
end AspAtlas
