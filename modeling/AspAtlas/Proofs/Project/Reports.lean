import AspAtlas.Proofs.Path.Extension
import AspAtlas.Proofs.Program.Places
import AspAtlas.Proofs.Project.Run
import AspAtlas.Proofs.Report.RoundTrip
import Mathlib.Data.List.Nodup
import Mathlib.Data.List.ProdSigma
/-!
Where reports and graphs end up. The files about a program are told apart by their folder and by the
stem of their names. Programs that share both, be it in two source folders or with two extensions,
have their files overwritten by the last of them.
-/
namespace AspAtlas.Project

variable {c : Config} {now : Timestamp} {output : Path} {d d' : Disk} {s : Summary}

namespace Product

theorem extension_plain (x : Product) :
    '/' ∉ x.extension.toList ∧ 1 < x.extension.toList.length := by
  cases x with
  | report => decide
  | graph kind => cases kind <;> decide

/-- A name is the stem of one product only. -/
theorem eq_of_extension {stem stem' : String} {x y : Product}
    (h : stem ++ "." ++ x.extension = stem' ++ "." ++ y.extension) : stem = stem' ∧ x = y := by
  have hchars := congrArg String.toList h
  simp only [String.toList_append] at hchars
  have hsame : x = y := by
    cases x with
    | report =>
      cases y with
      | report => rfl
      | graph kind =>
        have hlast := congrArg List.getLast? hchars
        cases kind <;> simp [extension, GraphKind.extension] at hlast
    | graph kind =>
      cases y with
      | report =>
        have hlast := congrArg List.getLast? hchars
        cases kind <;> simp [extension, GraphKind.extension] at hlast
      | graph kind' =>
        have hlength : kind.extension.toList.length = kind'.extension.toList.length := by
          cases kind <;> cases kind' <;> decide
        obtain ⟨-, hextension⟩ := List.append_inj' hchars hlength
        cases kind <;> cases kind' <;> simp_all [extension, GraphKind.extension]
  subst hsame
  rw [List.append_left_inj, List.append_left_inj, String.toList_inj] at hchars
  exact ⟨hchars, rfl⟩

end Product

theorem products_nodup (c : Config) : (products c).Nodup := by
  rw [products, graphKinds]
  cases c.graphs.enabled <;> cases c.graphs.statementGraph <;>
    cases c.graphs.definitionGraph <;> decide

/-- A program that is written about, with the source folder that it was found in. -/
structure Work where
  source : Path
  program : Program

namespace Work

/-- The path of a program below its source folder. -/
def relative (w : Work) : Path := (w.program.path.stripLead? w.source).getD w.program.path

/-- Where the files about a program go, up to their extensions. -/
def base (output : Path) (w : Work) : Path := reportBase w.program w.source output

theorem base_eq (output : Path) (w : Work) :
    w.base output = reportBase w.program w.source output := rfl

attribute [irreducible] base

/-- The file that a product is written to. -/
def target (output : Path) (w : Work) (x : Product) : Path :=
  (w.base output).withExtension x.extension

/-- What the files about a program have in common: their folder, and the stem of their names. -/
def slot (d : Disk) (output : Path) (w : Work) : List String × Option String :=
  ((w.base output).components.dropLast.foldl Component.follow d.current,
    (w.base output).fileName?.map fun name => (Path.splitFileName name).1)

/-- The place of a product is that of the slot, with the extension of the product. -/
theorem placeOf_target {w : Work} {x : Product} {name : String}
    (h : (w.target output x).components.getLast? = some (.name name)) :
    ∃ stem, (w.slot d output).2 = some stem ∧
      d.placeOf (w.target output x) = (w.slot d output).1 ++ [stem ++ "." ++ x.extension] := by
  obtain ⟨hslash, hlong⟩ := x.extension_plain
  obtain ⟨file, hfile, hcomponents⟩ := Path.components_withExtension hslash hlong h
  refine ⟨(Path.splitFileName file).1, by rw [slot, hfile, Option.map_some], ?_⟩
  rw [slot, target, Disk.placeOf, hcomponents, List.foldl_append]
  rfl

/-- Products of programs go to one place only if they are one product, of programs with one slot. -/
theorem placeOf_target_eq_iff {v w : Work} {x y : Product} {name name' : String}
    (hv : (v.target output x).components.getLast? = some (.name name))
    (hw : (w.target output y).components.getLast? = some (.name name')) :
    d.placeOf (v.target output x) = d.placeOf (w.target output y) ↔
      v.slot d output = w.slot d output ∧ x = y := by
  obtain ⟨stem, hstem, hplace⟩ := placeOf_target (d := d) hv
  obtain ⟨stem', hstem', hplace'⟩ := placeOf_target (d := d) hw
  rw [hplace, hplace', Prod.ext_iff, hstem, hstem', Option.some.injEq]
  constructor
  · intro h
    obtain ⟨hfolder, hname⟩ := List.append_inj' h rfl
    obtain ⟨hsame, hproduct⟩ := Product.eq_of_extension (List.cons.inj hname).1
    exact ⟨⟨hfolder, hsame⟩, hproduct⟩
  · rintro ⟨⟨hfolder, rfl⟩, rfl⟩
    rw [hfolder]

/-- A program whose path below its source folder is spelled with names keeps its place in the output
folder. -/
theorem slot_of_names {w : Work} {names : List String} {name : String}
    (h : w.relative.components = (names ++ [name]).map .name) :
    w.slot d output = (d.placeOf output ++ names, some (Path.splitFileName name).1) := by
  obtain ⟨hrelative, hinner⟩ := Path.inner_of_names h
  have hbase : (w.base output).components = output.components ++ (names ++ [name]).map .name := by
    have hjoin : w.base output = output.join w.relative.text := by
      rw [base_eq, reportBase, relative]
    rw [hjoin, Path.components_join, hinner]
    split
    · rename_i hempty
      rw [hempty.resolve_left hrelative, List.nil_append]
      exact h
    · rfl
  rw [List.map_append, List.map_singleton, ← List.append_assoc] at hbase
  have hname : (w.base output).fileName? = some name := by
    rw [Path.fileName?_eq_some_iff, hbase, List.getLast?_concat]
  rw [slot, hname, hbase, List.dropLast_concat, List.foldl_append, Disk.foldl_follow_names,
    Option.map_some, Disk.placeOf]

/-- A product of a program, as it is written. -/
def file (c : Config) (now : Timestamp) (output : Path) (e : Work × Product) : Path × String :=
  (e.1.target output e.2, e.2.text c now e.1.program)

theorem file_eq (e : Work × Product) :
    file c now output e = (e.1.target output e.2, e.2.text c now e.1.program) := rfl

end Work

theorem filter_product {α β : Type} [DecidableEq β] {bs : List β} (hbs : bs.Nodup) {b : β}
    (hb : b ∈ bs) (f : α → Bool) (as : List α) :
    ((as ×ˢ bs).filter fun e => f e.1 && e.2 = b) = (as.filter f).map fun a => (a, b) := by
  have hone : bs.filter (· = b) = [b] := by
    rw [List.filter_eq, List.count_eq_one_of_mem hbs hb, List.replicate_one]
  induction as with
  | nil => rfl
  | cons a as ih =>
    rw [List.product_cons, List.filter_append, ih, List.filter_map]
    cases ha : f a <;> simp [Function.comp_def, ha, hone]

/-- Where a product of a program is written, that product of the last program with
its slot is read in the end. -/
theorem readText_target {works : List Work}
    (h : d.Writes ((works ×ˢ products c).map (Work.file c now output)) d') {w : Work}
    (hw : w ∈ works) :
    ∃ v, (works.filter fun v => v.slot d output = w.slot d output).getLast? = some v ∧
      ∀ x ∈ products c, d'.readText (w.target output x) = .ok (x.text c now v.program) := by
  have hmem : w ∈ works.filter fun v => v.slot d output = w.slot d output :=
    List.mem_filter.mpr ⟨hw, decide_eq_true rfl⟩
  obtain ⟨v, hv⟩ :
      ∃ v, (works.filter fun v => v.slot d output = w.slot d output).getLast? = some v :=
    Option.ne_none_iff_exists'.mp
      fun hnone => List.ne_nil_of_mem hmem (List.getLast?_eq_none_iff.mp hnone)
  refine ⟨v, hv, fun x hx => ?_⟩
  have hfile {e : Work × Product} (he : e ∈ works ×ˢ products c) :=
    h.ends_with_name (List.mem_map_of_mem he)
  simp only [Work.file_eq] at hfile
  have hpair : (w, x) ∈ works ×ˢ products c := List.mem_product.mpr ⟨hw, hx⟩
  obtain ⟨name, hname⟩ := hfile hpair
  have hsame : ((works ×ˢ products c).filter fun e =>
        d.placeOf (Work.file c now output e).1 = d.placeOf (Work.file c now output (w, x)).1) =
      (works.filter fun v => v.slot d output = w.slot d output).map fun v => (v, x) := by
    rw [← filter_product (products_nodup c) hx]
    refine List.filter_congr fun e he => ?_
    obtain ⟨name', hname'⟩ := hfile he
    rw [← Bool.decide_and, decide_eq_decide, Work.file_eq, Work.file_eq]
    exact Work.placeOf_target_eq_iff hname' hname
  obtain ⟨last, hlast, hread⟩ := h.readText (List.mem_map_of_mem hpair)
  rw [Disk.lastAt_map, hsame, List.getLast?_map, hv, Option.map_some, Option.map_some,
    Option.some.injEq] at hlast
  rw [Work.file_eq] at hread
  rw [hread, ← hlast, Work.file_eq]

/-- The program of a turn, to be written about. -/
def Turn.work? (c : Config) (t : Turn) : Option Work := (t.program? c).map fun p => ⟨t.source, p⟩

theorem Turn.written_outputs (t : Turn) :
    (t.written c fun p source => outputs c now p (reportBase p source output)) =
      ((t.work? c).toList ×ˢ products c).map (Work.file c now output) := by
  rw [Turn.written, Turn.work?, Turn.program?]
  cases t.outcome c with
  | error e => rfl
  | ok p =>
    have hbase : reportBase p t.source output = Work.base output ⟨t.source, p⟩ := by
      rw [Work.base_eq]
    simp only [Except.toOption, Option.map_some, Option.toList_some, List.product_cons,
      List.nil_product, List.append_nil, List.map_map, outputs_eq, hbase]
    rfl

/-- What is written in some turns are the products of their programs. -/
theorem written_outputs (turns : List Turn) :
    (turns.flatMap (Turn.written c fun p source => outputs c now p (reportBase p source output))) =
      ((turns.filterMap (Turn.work? c)) ×ˢ products c).map (Work.file c now output) := by
  induction turns with
  | nil => rfl
  | cons t turns ih =>
    rw [List.flatMap_cons, ih, Turn.written_outputs]
    cases h : t.work? c with
    | none => simp [List.filterMap_cons_none h]
    | some w => simp [List.filterMap_cons_some h, List.product_cons]

theorem Turn.exists_of_work? {t : Turn} {w : Work} (h : t.work? c = some w) :
    w.source = t.source ∧ t.outcome c = .ok w.program ∧ w.program.path = t.file := by
  rw [Turn.work?, Turn.program?, Option.map_eq_some_iff] at h
  obtain ⟨p, hp, rfl⟩ := h
  cases houtcome : t.outcome c with
  | error e => simp [houtcome, Except.toOption] at hp
  | ok q =>
    obtain rfl : q = p := by simpa [houtcome, Except.toOption] using hp
    exact ⟨rfl, rfl, path_of_analyzeFile houtcome⟩

theorem paths_of_works (turns : List Turn) :
    (turns.filterMap (Turn.work? c)).map (fun w => w.program.path) =
      (turns.filter fun t => (t.program? c).isSome).map Turn.file := by
  induction turns with
  | nil => rfl
  | cons t turns ih =>
    cases hprogram : t.program? c with
    | none =>
      have hwork : t.work? c = none := by rw [Turn.work?, hprogram, Option.map_none]
      rw [List.filterMap_cons_none hwork, List.filter_cons_of_neg (by simp [hprogram]), ih]
    | some p =>
      have hwork : t.work? c = some ⟨t.source, p⟩ := by rw [Turn.work?, hprogram, Option.map_some]
      have hpath : p.path = t.file := (Turn.exists_of_work? hwork).2.2
      rw [List.filterMap_cons_some hwork, List.filter_cons_of_pos (by simp [hprogram]),
        List.map_cons, List.map_cons, ih, hpath]

/-- The folder that a run writes to: a given one, or that of the settings. -/
def outputOf (c : Config) (output : Option Path) : Path := output.getD c.project.docsDir

/-- What is found in the end where the report and the graphs of a program are written are those of
the last program with the same slot. A report can be read back, so it is the report of that program;
it is that of every program if no two share a slot. The slot of a program is the place of its path
below its source folder, moved to the output folder, without the last extension. -/
theorem analyze_reports {source folder : Option Path}
    (h : analyze c now source folder d = .done s d') :
    ∃ works : List Work, works.map (fun w => w.program.path) = s.analyzed ∧
      (∀ w ∈ works, w.source ∈ sourcesOf c source ∧
        ∃ e sourceRoot, analyzeFile c e w.program.path sourceRoot = .ok w.program) ∧
      (∀ w ∈ works, ∃ v,
        (works.filter fun v =>
          v.slot d (outputOf c folder) = w.slot d (outputOf c folder)).getLast? = some v ∧
        ∀ x ∈ products c, d'.readText (w.target (outputOf c folder) x) =
          .ok (x.text c now v.program)) ∧
      (∀ w ∈ works, (Report.ofProgram w.program now).Fits →
        Report.parse (Product.report.text c now w.program) = .ok (.ofProgram w.program now)) ∧
      ((works.Pairwise fun v w => v.slot d (outputOf c folder) ≠ w.slot d (outputOf c folder)) →
        ∀ w ∈ works, ∀ x ∈ products c,
          d'.readText (w.target (outputOf c folder) x) = .ok (x.text c now w.program)) ∧
      ∀ w ∈ works, ∀ names name, w.relative.components = (names ++ [name]).map .name →
        w.slot d (outputOf c folder) =
          (d.placeOf (outputOf c folder) ++ names, some (Path.splitFileName name).1) := by
  rw [analyze, Outcome.andThen_eq_done] at h
  obtain ⟨_, mid, hfolder, hrun⟩ := h
  obtain ⟨turns, hturns, htallies⟩ := exists_turns hrun
  have hwrites := (hturns.writes (wrote_writeOutputs c now _)).1
  rw [written_outputs] at hwrites
  have hall : d.Writes (((turns.filterMap (Turn.work? c)) ×ˢ products c).map
      (Work.file c now (outputOf c folder))) d' :=
    .folders (Outcome.addsFolders_of_createFolders hfolder) hwrites
  have hlast {w : Work} (hw : w ∈ turns.filterMap (Turn.work? c)) := readText_target hall hw
  refine ⟨turns.filterMap (Turn.work? c), ?_, ?_, fun w hw => hlast hw, ?_, ?_, ?_⟩
  · rw [paths_of_works, htallies.analyzed]
  · intro w hw
    obtain ⟨t, hmem, ht⟩ := List.mem_filterMap.mp hw
    obtain ⟨hsource, houtcome, hpath⟩ := Turn.exists_of_work? ht
    rw [hsource, hpath]
    exact ⟨hturns.source_mem t hmem, t.disk, t.sourceRoot, houtcome⟩
  · intro w _ hfits
    rw [Product.text]
    exact Report.parse_print_of_fits hfits _
  · intro hapart w hw
    have hsymm : Std.Symm fun v w : Work =>
        v.slot d (outputOf c folder) ≠ w.slot d (outputOf c folder) :=
      ⟨fun _ _ hne he => hne he.symm⟩
    obtain ⟨v, hv, hread⟩ := hlast hw
    obtain ⟨hmem, hslot⟩ := List.mem_filter.mp (List.mem_of_getLast? hv)
    have hsame : v = w := by
      by_contra hne
      exact hapart.forall hmem hw hne (of_decide_eq_true hslot)
    subst hsame
    exact hread
  · intro w _ names name hnames
    exact Work.slot_of_names hnames

section Twins

/-- Settings with two extensions of programs. -/
def twinsConfig : Config where
  analysis := { extensions := ["lp", "asp"] }

/-- Two empty programs that differ in their extensions only. -/
def twins : Disk where
  entries := .ofList
    [(["docs"], .folder), (["src"], .folder), (["src", "a.asp"], .file "".toUTF8),
      (["src", "a.lp"], .file "".toUTF8)]

theorem discover_twins :
    discover twinsConfig twins ⟨"src"⟩ = .ok [⟨"src/a.asp"⟩, ⟨"src/a.lp"⟩] :=
  discover_of_sorted ["src/a.asp", "src/a.lp"] (by decide +kernel) (by decide +kernel)

theorem reportBase_twins :
    ((⟨"docs"⟩ : Path).join
      (((⟨"src/a.asp"⟩ : Path).stripLead? ⟨"src"⟩).getD ⟨"src/a.asp"⟩).text).text =
        "docs/a.asp" ∧
      ((⟨"docs"⟩ : Path).join
        (((⟨"src/a.lp"⟩ : Path).stripLead? ⟨"src"⟩).getD ⟨"src/a.lp"⟩).text).text =
        "docs/a.lp" := by
  decide +kernel

theorem takesOutputs_twins :
    TakesOutputs twinsConfig twins ⟨"docs/a.asp"⟩ ∧
      TakesOutputs twinsConfig twins ⟨"docs/a.lp"⟩ := by
  have hparents : (⟨"docs/a.asp"⟩ : Path).parent?.map Path.text = some "docs" ∧
      (⟨"docs/a.lp"⟩ : Path).parent?.map Path.text = some "docs" := by
    decide +kernel
  constructor
  · exact .of_parent hparents.1 (by decide +kernel) rfl (by decide +kernel)
  · exact .of_parent hparents.2 (by decide +kernel) rfl (by decide +kernel)

theorem analyzeFile_twins :
    (∃ p, analyzeFile twinsConfig twins ⟨"src/a.asp"⟩ (some ⟨"src"⟩) = .ok p) ∧
      ∀ d : Disk, d.readText ⟨"src/a.lp"⟩ = .ok "" →
        ∃ p, analyzeFile twinsConfig d ⟨"src/a.lp"⟩ (some ⟨"src"⟩) = .ok p ∧
          (Report.ofProgram p .epoch).Fits := by
  have hfirst : (Program.ofSource ⟨⟨"src/a.asp"⟩, [], [.ofText ⟨"src/a.asp"⟩ ""]⟩
      twinsConfig.analysis).toOption.map (fun _ => ()) = some () := by
    decide +kernel
  have hsecond : (Program.ofSource ⟨⟨"src/a.lp"⟩, [], [.ofText ⟨"src/a.lp"⟩ ""]⟩
      twinsConfig.analysis).toOption.map (fun p =>
        let r := Report.ofProgram (p.qualify ⟨"src"⟩) .epoch
        (r.generatedAt.isValid,
          [r.statements.length, r.external.length, r.symbols.length, r.vars.length,
          r.directives.groups.length, r.diagnostics.length, r.statementGraph.nodes.length,
          r.statementGraph.edges.toList.length], r.summary)) =
      some (true, [0, 0, 0, 0, 0, 0, 0, 0], ⟨0, 0, 0, 0, 0, 0, 0, 0⟩) := by
    decide +kernel
  obtain ⟨p, hp, -⟩ := exists_ok_of_toOption hfirst
  obtain ⟨q, hq, hempty⟩ := exists_ok_of_toOption hsecond
  constructor
  · have hread : twins.fileSystem.read ⟨"src/a.asp"⟩ = .ok "" := rfl
    refine ⟨p.qualify ⟨"src"⟩, ?_⟩
    rw [analyzeFile, Program.load_of_empty rfl hread, hp]
    rfl
  · intro d hread
    refine ⟨q.qualify ⟨"src"⟩, ?_, ?_⟩
    · have hfile : d.isFile ⟨"src/a.lp"⟩ = true :=
        Disk.isFile_of_name hread (by decide) (by decide : "a.lp" ≠ "null")
      rw [analyzeFile, Program.load_of_empty hfile hread, hq]
      rfl
    · simp only [Prod.mk.injEq, List.cons.injEq, List.length_eq_zero_iff, and_true] at hempty
      obtain ⟨hvalid, ⟨hstatements, hexternal, hsymbols, hvars, hgroups, hdiagnostics,
        hnodes, hedges⟩, hsummary⟩ := hempty
      constructor
      · exact hvalid
      · simp [hstatements]
      · simp [hexternal]
      · simp [hsymbols]
      · simp [hvars]
      · simp [hgroups]
      · simp [hdiagnostics]
      · exact ⟨by simp [hnodes], by simp [hedges]⟩
      · rw [hsummary]
        constructor <;> simp [IsWord]

/-- The turns of the two programs. -/
def twinTurns (mid : Disk) : List Turn :=
  [⟨⟨"src"⟩, some ⟨"src"⟩, ⟨"src/a.asp"⟩, twins⟩, ⟨⟨"src"⟩, some ⟨"src"⟩, ⟨"src/a.lp"⟩, mid⟩]

/-- Both programs are analysed, and written about one after the other. -/
theorem exists_analyze_twins : ∃ s d' p q,
    analyze twinsConfig .epoch none none twins = .done s d' ∧
      s.analyzed = [⟨"src/a.asp"⟩, ⟨"src/a.lp"⟩] ∧ p.path = ⟨"src/a.asp"⟩ ∧ q.path = ⟨"src/a.lp"⟩ ∧
      (Report.ofProgram q .epoch).Fits ∧
      twins.Writes (([⟨⟨"src"⟩, p⟩, ⟨⟨"src"⟩, q⟩] ×ˢ products twinsConfig).map
        (Work.file twinsConfig .epoch ⟨"docs"⟩)) d' := by
  obtain ⟨⟨p, hp⟩, hsecond⟩ := analyzeFile_twins
  have hpath := path_of_analyzeFile hp
  obtain ⟨mid, hmid, hwritten, htakes⟩ :=
    exists_writeOutputs .epoch (reportBase_eq hpath reportBase_twins.1) takesOutputs_twins.1
  have hplaces : ((products twinsConfig).filter fun x =>
      twins.placeOf ((⟨"docs/a.asp"⟩ : Path).withExtension x.extension) =
        twins.placeOf ⟨"src/a.lp"⟩) = [] := by
    decide +kernel
  have hread : mid.readText ⟨"src/a.lp"⟩ = .ok "" := readText_beside hwritten rfl hplaces
  obtain ⟨q, hq, hfits⟩ := hsecond mid hread
  have hpath' := path_of_analyzeFile hq
  obtain ⟨d', hd', -⟩ :=
    exists_writeOutputs .epoch (reportBase_eq hpath' reportBase_twins.2)
      (htakes _ takesOutputs_twins.2)
  have hrun : SourcesRun twinsConfig (writeOutputs twinsConfig .epoch ⟨"docs"⟩) [⟨"src"⟩] twins
      (twinTurns mid) d' :=
    .present rfl discover_twins (.cons (.analyzed hp hmid) (.cons (.analyzed hq hd') .nil)) .nil
  have hfolder : Outcome.createFolders "output directory " ⟨"docs"⟩ twins = .done () twins := rfl
  obtain ⟨s, hdone, htallies⟩ := exists_analyze (c := twinsConfig) none none hfolder hrun
  have hwrites := (hrun.writes (wrote_writeOutputs _ _ _)).1
  rw [written_outputs] at hwrites
  refine ⟨s, d', p, q, hdone, ?_, hpath, hpath', hfits, ?_⟩
  · rw [htallies.analyzed]
    simp [twinTurns, Turn.program?, Turn.outcome, hp, hq, Except.toOption]
  · simpa [twinTurns, Turn.work?, Turn.program?, Turn.outcome, hp, hq, Except.toOption]
      using hwrites

/-- The two programs have one slot. -/
theorem slot_twins {w : Work} (hsource : w.source = ⟨"src"⟩)
    (hpath : w.program.path = ⟨"src/a.asp"⟩ ∨ w.program.path = ⟨"src/a.lp"⟩) :
    w.slot twins ⟨"docs"⟩ = (["docs"], some "a") := by
  have hnames : (((⟨"src/a.asp"⟩ : Path).stripLead? ⟨"src"⟩).getD ⟨"src/a.asp"⟩).components =
        [.name "a.asp"] ∧
      (((⟨"src/a.lp"⟩ : Path).stripLead? ⟨"src"⟩).getD ⟨"src/a.lp"⟩).components =
        [.name "a.lp"] := by
    decide +kernel
  have hstems : twins.placeOf ⟨"docs"⟩ ++ [] = ["docs"] ∧ (Path.splitFileName "a.asp").1 = "a" ∧
      (Path.splitFileName "a.lp").1 = "a" := by
    decide
  obtain ⟨hdocs, hasp, hlp⟩ := hstems
  obtain hpath | hpath := hpath
  · have hrelative : w.relative.components = ([] ++ ["a.asp"]).map .name := by
      rw [Work.relative, hsource, hpath]
      exact hnames.1
    rw [Work.slot_of_names hrelative, hdocs, hasp]
  · have hrelative : w.relative.components = ([] ++ ["a.lp"]).map .name := by
      rw [Work.relative, hsource, hpath]
      exact hnames.2
    rw [Work.slot_of_names hrelative, hdocs, hlp]

theorem target_twins {w : Work} (hsource : w.source = ⟨"src"⟩)
    (hpath : w.program.path = ⟨"src/a.asp"⟩) : w.target ⟨"docs"⟩ .report = ⟨"docs/a.json"⟩ := by
  have hbase : w.base ⟨"docs"⟩ = ⟨"docs/a.asp"⟩ := by
    rw [Work.base_eq, hsource]
    exact reportBase_eq hpath reportBase_twins.1
  rw [Work.target, hbase]
  exact congrArg Path.mk (by decide +kernel)

/-- The report on one program is replaced by that on another one, of which it has the name. -/
theorem analyze_replaces_report : ∃ s d' text r,
    analyze twinsConfig .epoch none none twins = .done s d' ∧
      s.analyzed = [⟨"src/a.asp"⟩, ⟨"src/a.lp"⟩] ∧
      (∀ w : Work, w.source = ⟨"src"⟩ → w.program.path = ⟨"src/a.asp"⟩ →
        w.target ⟨"docs"⟩ .report = ⟨"docs/a.json"⟩) ∧
      d'.readText ⟨"docs/a.json"⟩ = .ok text ∧ Report.parse text = .ok r ∧
        r.path = ⟨"src/a.lp"⟩ := by
  obtain ⟨s, d', p, q, hdone, hanalyzed, hp, hq, hfits, hwrites⟩ := exists_analyze_twins
  obtain ⟨v, hv, hread⟩ := readText_target hwrites (w := ⟨⟨"src"⟩, p⟩) List.mem_cons_self
  have hslot := slot_twins (w := ⟨⟨"src"⟩, p⟩) rfl (.inl hp)
  have hslot' := slot_twins (w := ⟨⟨"src"⟩, q⟩) rfl (.inr hq)
  obtain rfl : ⟨⟨"src"⟩, q⟩ = v := by simpa [hslot, hslot'] using hv
  have htext := hread .report List.mem_cons_self
  rw [target_twins rfl hp] at htext
  exact ⟨s, d', _, _, hdone, hanalyzed, fun w => target_twins, htext,
    Report.parse_print_of_fits hfits _, hq⟩

/-- Where the products of the first program were written, those of the second one are read. -/
theorem analyze_reports_of_twins : ∃ (s : Summary) (d' : Disk) (w v : Work),
    analyze twinsConfig .epoch none none twins = .done s d' ∧ w.program.path = ⟨"src/a.asp"⟩ ∧
      v.program.path = ⟨"src/a.lp"⟩ ∧ ∀ x ∈ products twinsConfig,
        d'.readText (w.target ⟨"docs"⟩ x) = .ok (x.text twinsConfig .epoch v.program) := by
  obtain ⟨s, d', p, q, hdone, hanalyzed, -⟩ := exists_analyze_twins
  obtain ⟨works, hworks, hloaded, hlast, -⟩ := analyze_reports hdone
  rw [hanalyzed] at hworks
  obtain ⟨w, behind, rfl, hw, hbehind⟩ := List.map_eq_cons_iff.mp hworks
  obtain ⟨v, rest, rfl, hv, hrest⟩ := List.map_eq_cons_iff.mp hbehind
  obtain rfl := List.map_eq_nil_iff.mp hrest
  have hsource {u : Work} (hu : u ∈ [w, v]) : u.source = ⟨"src"⟩ :=
    List.mem_singleton.mp (hloaded u hu).1
  have hslot := slot_twins (hsource List.mem_cons_self) (.inl hw)
  have hslot' := slot_twins (hsource (List.mem_cons_of_mem _ List.mem_cons_self)) (.inr hv)
  obtain ⟨u, hu, hread⟩ := hlast w List.mem_cons_self
  have hfolder : outputOf twinsConfig none = ⟨"docs"⟩ := rfl
  rw [hfolder] at hu hread
  obtain rfl : v = u := by simpa [hslot, hslot'] using hu
  exact ⟨s, d', w, v, hdone, hw, hv, hread⟩

end Twins

end AspAtlas.Project
