import AspAtlas.Program.Decoration
import AspAtlas.Proofs.Path.Extension
import AspAtlas.Proofs.Path.Relative
import AspAtlas.Proofs.Surface.Relocation
/-!
What qualifiers tell apart. The qualifier of a program file is its relative path with dots for
slashes, up to the extension. A dot in a name looks like a step into a directory there; so
qualifiers, and with them the names that statements are displayed with, tell two files apart only if
their relative paths differ with dots for slashes.
-/
namespace AspAtlas

namespace Path

variable {file file' root p : Path} {dirs names fs gs : List String} {stem ext name : String}

/-- A file lies below a source root at some names, the last of which ends in `.lp`. The names `..lp`
and `...lp` are left out: what is in front of their extensions is no name. -/
structure LiesAt (file root : Path) (names : List String) : Prop where
  components : file.components = root.components ++ names.map .name
  below : names ≠ []
  extension : file.extension? = some "lp"
  named : file.fileName? ≠ some "..lp" ∧ file.fileName? ≠ some "...lp"

/-- The only dot in a relative path is that of the extension. -/
def Undotted (names : List String) : Prop :=
  ∃ dirs stem, names = dirs ++ [stem ++ ".lp"] ∧ ∀ name ∈ dirs ++ [stem], '.' ∉ name.toList

/-- A name with an extension is its stem, a dot and the extension. -/
theorem eq_of_splitFileName (h : splitFileName name = (stem, some ext)) :
    name = stem ++ "." ++ ext ∧ stem ≠ "" := by
  have hends := List.takeWhile_append_dropWhile (p := (· != '.')) (l := name.toList.reverse)
  have hfirst := List.head?_dropWhile_not (· != '.') name.toList.reverse
  simp only [splitFileName] at h
  generalize List.takeWhile (· != '.') name.toList.reverse = tail at *
  generalize List.dropWhile (· != '.') name.toList.reverse = dotted at *
  rw [← hends, List.drop_left] at h
  split at h
  · cases h
  · cases h
  · rename_i c rev hne
    obtain ⟨rfl, hext⟩ := Prod.mk.inj h
    obtain rfl := Option.some.inj hext
    obtain rfl : c = '.' := by simpa using hfirst
    have hname := congrArg List.reverse hends
    rw [List.reverse_reverse] at hname
    constructor
    · rw [← String.toList_inj, ← hname]
      simp
    · simpa using hne

/-- Without dots in the names, the dots between them tell where a name ends. -/
theorem eq_of_dotted_eq (hfs : ∀ name ∈ fs, '.' ∉ name.toList)
    (hgs : ∀ name ∈ gs, '.' ∉ name.toList)
    (hf : fs ≠ []) (hg : gs ≠ []) (h : ".".intercalate fs = ".".intercalate gs) : fs = gs := by
  have hsplit {names : List String} (hplain : ∀ name ∈ names, '.' ∉ name.toList)
      (hne : names ≠ []) :
      (".".intercalate names).toList.splitOn '.' = names.map String.toList := by
    rw [String.toList_intercalate]
    exact List.splitOn_intercalate '.' (by simpa using hplain) (by simpa using hne)
  have hlists := hsplit hfs hf
  rw [h, hsplit hgs hg] at hlists
  exact (List.map_injective_iff.mpr (fun _ _ => String.toList_inj.mp) hlists).symm

theorem dotted_append (dirs : List String) (stem : String) :
    ".".intercalate (dirs ++ [stem ++ ".lp"]) = ".".intercalate (dirs ++ [stem]) ++ ".lp" := by
  induction dirs with
  | nil => simp
  | cons dir dirs ih =>
    rw [List.cons_append, String.intercalate_cons_of_ne_nil (by simp), ih, List.cons_append,
      String.intercalate_cons_of_ne_nil (by simp), ← String.append_assoc]

/-- Without its extension, a path ends in the stem of its file name. -/
theorem components_withExtension_empty (h : p.fileName? = some name)
    (hstem : (splitFileName name).1 ∉ ["", ".", ".."]) :
    (p.withExtension "").components = p.components.dropLast ++ [.name (splitFileName name).1] := by
  simp only [List.mem_cons, List.not_mem_nil, or_false, not_or] at hstem
  obtain ⟨hempty, hdot, hup⟩ := hstem
  obtain ⟨hslash, base, f, hf, hp, hbehind⟩ := exists_lead h
  have hstem : '/' ∉ (splitFileName name).1.toList :=
    fun hc => hslash ((stem_begins_name name).subset hc)
  obtain ⟨hname, hinner⟩ := components_of_ne_dots hstem (by simpa using hempty)
    (fun hc => hdot (String.toList_inj.mp hc)) (fun hc => hup (String.toList_inj.mp hc))
  rw [String.ofList_toList] at hname hinner
  simp only [withExtension, h]
  rw [if_neg (fun hdots => hdot hdots.1), if_pos (by decide), components, String.toList_append,
    String.toList_ofList, hbehind, hp, List.dropLast_concat]
  rcases hf with rfl | rfl
  · rw [hname]
  · rw [hinner]

namespace LiesAt

theorem exists_dirs (h : file.LiesAt root names) :
    ∃ dirs stem, names = dirs ++ [stem ++ ".lp"] ∧
      splitFileName (stem ++ ".lp") = (stem, some "lp") ∧ stem ∉ ["", ".", ".."] := by
  obtain ⟨dirs, last, rfl⟩ := (List.eq_nil_or_concat names).resolve_left h.below
  have hname : file.fileName? = some last := by
    rw [fileName?_eq_some_iff, h.components]
    simp
  have hextension := h.extension
  obtain ⟨hnamed, hnamed'⟩ := h.named
  rw [hname] at hnamed hnamed'
  rw [extension?, hname, Option.bind_some] at hextension
  obtain ⟨stem, hsplit⟩ : ∃ stem, splitFileName last = (stem, some "lp") :=
    ⟨_, Prod.ext rfl hextension⟩
  obtain ⟨hlast, hne⟩ := eq_of_splitFileName hsplit
  have hends : last = stem ++ ".lp" := by
    rw [hlast, String.append_assoc]
    rfl
  subst hends
  refine ⟨dirs, stem, List.concat_eq_append, hsplit, ?_⟩
  simp only [List.mem_cons, List.not_mem_nil, or_false, not_or]
  refine ⟨hne, ?_, ?_⟩
  · rintro rfl
    exact hnamed (by decide)
  · rintro rfl
    exact hnamed' (by decide)

/-- The qualifier is the relative path with dots for slashes, up to the last dot. -/
theorem qualifier_append (h : file.LiesAt root names) :
    file.qualifier root ++ "lp" = ".".intercalate names := by
  obtain ⟨dirs, stem, rfl, hsplit, hstem⟩ := h.exists_dirs
  obtain ⟨q, hq, hcomponents⟩ := exists_stripLead? h.components (by cases dirs <;> simp)
  have hname : q.fileName? = some (stem ++ ".lp") := by
    rw [fileName?_eq_some_iff, hcomponents]
    simp
  have hcut := components_withExtension_empty hname (by rwa [hsplit])
  have hnames : (q.withExtension "").components = (dirs ++ [stem]).map .name := by
    rw [hcut, hcomponents, hsplit]
    simp
  have hfilled : (dirs ++ [stem]).isEmpty = false := by simp
  rw [qualifier, hq, Option.getD_some, hnames]
  simp only [List.filterMap_map, Function.comp_def, List.filterMap_some, hfilled,
    Bool.false_eq_true, if_false]
  rw [dotted_append, String.append_assoc]
  rfl

end LiesAt
end Path

namespace Program

variable {p : Program} {root : Path} {s : Statement}

/-- A qualified statement has the qualifier of its file. -/
theorem qualifier_of_mem_qualify (h : s ∈ (p.qualify root).allStatements) :
    s.qualifier = s.sourceFile.qualifier root := by
  rw [allStatements, qualify, mapStatements, ← List.map_append] at h
  obtain ⟨bare, -, hbare⟩ := List.mem_map.mp h
  rw [← hbare]

end Program

namespace Path

/-- The qualifiers of two program files are the same exactly if their relative paths are the same
with dots for slashes. -/
theorem qualifier_eq_iff_of_liesAt {file file' root : Path} {fs gs : List String}
    (hf : file.LiesAt root fs) (hg : file'.LiesAt root gs) :
    file.qualifier root ++ "lp" = ".".intercalate fs ∧
    (file.qualifier root = file'.qualifier root ↔ ".".intercalate fs = ".".intercalate gs) ∧
    (Undotted fs → Undotted gs → fs ≠ gs → file.qualifier root ≠ file'.qualifier root) ∧
    ∀ (p q : Program) (s t : Statement), s ∈ (p.qualify root).allStatements →
      t ∈ (q.qualify root).allStatements → s.sourceFile = file → t.sourceFile = file' →
      s.identity = t.identity →
      (s.displayName = t.displayName ↔ ".".intercalate fs = ".".intercalate gs) := by
  have hsame : file.qualifier root = file'.qualifier root ↔
      ".".intercalate fs = ".".intercalate gs := by
    rw [← hf.qualifier_append, ← hg.qualifier_append, String.append_left_inj]
  refine ⟨hf.qualifier_append, hsame, ?_, ?_⟩
  · rintro ⟨dirs, stem, rfl, hplain⟩ ⟨dirs', stem', rfl, hplain'⟩ hne heq
    have hdotted := hsame.mp heq
    rw [dotted_append, dotted_append, String.append_left_inj] at hdotted
    have hnames := eq_of_dotted_eq hplain hplain' (by simp) (by simp) hdotted
    obtain ⟨rfl, hstem⟩ := List.append_inj' hnames rfl
    obtain rfl := List.singleton_inj.mp hstem
    exact hne rfl
  · rintro p q s t hs ht rfl rfl hidentity
    rw [Statement.displayName, Statement.displayName, hidentity, String.append_left_inj,
      Program.qualifier_of_mem_qualify hs, Program.qualifier_of_mem_qualify ht]
    exact hsame

/-- Two files without dots in their names, spelled in different ways below one root. -/
theorem qualifier_eq_iff_of_liesAt_undotted :
    (⟨"./src/a//b.lp"⟩ : Path).LiesAt ⟨"./src/"⟩ ["a", "b.lp"] ∧
      (⟨"./src/a/b/./c.lp"⟩ : Path).LiesAt ⟨"./src/"⟩ ["a", "b", "c.lp"] ∧
      (⟨"./src/a//b.lp"⟩ : Path).qualifier ⟨"./src/"⟩ ++ "lp" = "a.b.lp" ∧
      (⟨"./src/a//b.lp"⟩ : Path).qualifier ⟨"./src/"⟩ ≠
        (⟨"./src/a/b/./c.lp"⟩ : Path).qualifier ⟨"./src/"⟩ ∧
      ∀ (p q : Program) (s t : Statement), s ∈ (p.qualify ⟨"./src/"⟩).allStatements →
        t ∈ (q.qualify ⟨"./src/"⟩).allStatements → s.sourceFile = ⟨"./src/a//b.lp"⟩ →
        t.sourceFile = ⟨"./src/a/b/./c.lp"⟩ → s.identity = t.identity →
        s.displayName ≠ t.displayName := by
  have hf : (⟨"./src/a//b.lp"⟩ : Path).LiesAt ⟨"./src/"⟩ ["a", "b.lp"] := by
    constructor <;> decide
  have hg : (⟨"./src/a/b/./c.lp"⟩ : Path).LiesAt ⟨"./src/"⟩ ["a", "b", "c.lp"] := by
    constructor <;> decide
  obtain ⟨htext, -, hplain, hshown⟩ := qualifier_eq_iff_of_liesAt hf hg
  refine ⟨hf, hg, htext,
    hplain ⟨["a"], "b", by decide⟩ ⟨["a", "b"], "c", by decide⟩ (by decide), ?_⟩
  intro p q s t hs ht hsfile htfile hidentity heq
  exact absurd ((hshown p q s t hs ht hsfile htfile hidentity).mp heq) (by decide)

/-- A dot in the name of a directory looks like a step into a directory, and the name of two dots
with `lp` behind them leaves nothing in a qualifier. So different files below a root have one
qualifier, and their statements may be displayed with one name. -/
theorem qualifier_eq_of_dots :
    (⟨"src/a.b/c.lp"⟩ : Path).LiesAt ⟨"src"⟩ ["a.b", "c.lp"] ∧
      (⟨"src/a/b.c.lp"⟩ : Path).LiesAt ⟨"src"⟩ ["a", "b.c.lp"] ∧
      ((parseItems ⟨"src/a.b/c.lp"⟩ "p.").toOption.map fun items =>
        (Program.ofSource ⟨⟨"src/a.b/c.lp"⟩, statementsOf items, []⟩ {}).toOption.map fun p =>
          (p.qualify ⟨"src"⟩).allStatements.map Statement.displayName) = some (some ["a.b.c.p/0"]) ∧
      ((parseItems ⟨"src/a/b.c.lp"⟩ "p.").toOption.map fun items =>
        (Program.ofSource ⟨⟨"src/a/b.c.lp"⟩, statementsOf items, []⟩ {}).toOption.map fun p =>
          (p.qualify ⟨"src"⟩).allStatements.map Statement.displayName) = some (some ["a.b.c.p/0"]) ∧
      (⟨"a/..lp"⟩ : Path).qualifier ⟨""⟩ = (⟨"a.lp"⟩ : Path).qualifier ⟨""⟩ := by
  refine ⟨?_, ?_, ?_⟩
  · constructor <;> decide
  · constructor <;> decide
  · decide +kernel

end Path
end AspAtlas
