import AspAtlas.Proofs.Directive.Gathering
import AspAtlas.Statement.Annotation
import Mathlib.Data.List.TakeWhile
/-!
Headings from the lines of a file. The directives of a file stand in the order of their lines, so
the heading at a line is the section that was opened last for the first time above it.
-/
namespace AspAtlas

theorem getLast?_filterMap {α β : Type} {f : α → Option β} {xs : List α}
    (h : ∀ x ∈ xs, (f x).isSome = true) : (xs.filterMap f).getLast? = xs.getLast?.bind f := by
  rcases List.eq_nil_or_concat xs with rfl | ⟨before, x, rfl⟩
  · rfl
  · obtain ⟨y, hy⟩ := Option.isSome_iff_exists.mp (h x (by simp))
    simp [hy]

namespace DirectiveExtractor

variable {e : DirectiveExtractor} {file : Path}

theorem lineNumber_of_parseLine? {line : String} {number : Nat} {d : Directive}
    (h : e.parseLine? line number file = some d) : d.lineNumber = number := by
  simp only [parseLine?, Option.bind_eq_bind, Option.bind_eq_some_iff] at h
  obtain ⟨head, -, split, -, h⟩ := h
  split at h
  · cases h
  · cases h
  · cases h
    rfl

theorem lineNumber_of_mem {lines : List String} {first : Nat} {d : Directive}
    (h : d ∈ (lines.zipIdx first).filterMap fun x => e.parseLine? x.1 x.2 file) :
    first ≤ d.lineNumber ∧ d.lineNumber < first + lines.length := by
  obtain ⟨x, hx, hd⟩ := List.mem_filterMap.mp h
  rw [lineNumber_of_parseLine? hd]
  obtain ⟨hle, hlt, -⟩ := List.mem_zipIdx hx
  exact ⟨hle, hlt⟩

/-- The directives of a file are those of its first lines, then those of the lines below. -/
theorem directivesOf_split (e : DirectiveExtractor) (lines : List String) (file : Path) (n : Nat) :
    ∃ later, e.directivesOf lines file = e.directivesOf (lines.take n) file ++ later ∧
      (∀ d ∈ e.directivesOf (lines.take n) file, d.lineNumber < n) ∧
        ∀ d ∈ later, n ≤ d.lineNumber := by
  refine ⟨((lines.drop n).zipIdx (lines.take n).length).filterMap
    fun x => e.parseLine? x.1 x.2 file, ?_, fun d hd => ?_, fun d hd => ?_⟩
  · conv_lhs => rw [directivesOf, ← List.take_append_drop n lines]
    rw [List.zipIdx_append, List.filterMap_append, Nat.zero_add]
    rfl
  · have hlt := (lineNumber_of_mem hd).2
    rw [List.length_take] at hlt
    omega
  · have hle := lineNumber_of_mem hd
    rw [List.length_take, List.length_drop] at hle
    omega

theorem directivesOf_ascending (e : DirectiveExtractor) (lines : List String) (file : Path) :
    (e.directivesOf lines file).Pairwise fun a b => a.lineNumber < b.lineNumber := by
  have hnumbers : (lines.zipIdx).Pairwise fun x y => x.2 < y.2 := by
    rw [← List.pairwise_map (f := Prod.snd) (R := (· < ·)), List.zipIdx_map_snd]
    exact List.pairwise_lt_range'
  rw [directivesOf, List.pairwise_filterMap]
  refine hnumbers.imp fun {x y} hlt a ha b hb => ?_
  rwa [lineNumber_of_parseLine? ha, lineNumber_of_parseLine? hb]

end DirectiveExtractor

namespace Directive

variable {name subject : String} {ds : List Directive}

theorem lineNumber_entryOn? (name subject : String) (ds : List Directive) :
    (entryOn? name subject ds).map lineNumber = (ds.find? (isOn name subject)).map lineNumber := by
  rw [entryOn?, Option.map_map]
  rfl

/-- Further directives bring further subjects. -/
theorem subjectsUnder_append (name : String) (ds es : List Directive) :
    ∃ fresh, subjectsUnder name (ds ++ es) = subjectsUnder name ds ++ fresh ∧
      ∀ subject ∈ fresh, subject ∉ subjectsUnder name ds := by
  have happend : subjectsUnder name (ds ++ es) = subjectsUnder name ds ++
      (((es.filter fun d => d.name == name).map Directive.subject).removeAll
        ((ds.filter fun d => d.name == name).map Directive.subject)).eraseDups := by
    rw [subjectsUnder, List.filter_append, List.map_append, List.eraseDups_append]
    rfl
  refine ⟨_, happend, fun subject hmem => ?_⟩
  rw [List.mem_eraseDups, List.removeAll, List.mem_filter] at hmem
  rw [subjectsUnder, List.mem_eraseDups]
  simpa using hmem.2

theorem exists_entryOn? (h : subject ∈ subjectsUnder name ds) (es : List Directive) :
    ∃ d, entryOn? name subject (ds ++ es) = some d ∧
      ∃ first ∈ ds, d.lineNumber = first.lineNumber := by
  obtain ⟨d, hd, hname, hsubject⟩ := mem_subjectsUnder.mp h
  have hsome : (ds.find? (isOn name subject)).isSome = true :=
    List.find?_isSome.mpr ⟨d, hd, isOn_iff.mpr ⟨hname, hsubject⟩⟩
  obtain ⟨first, hfirst⟩ := Option.isSome_iff_exists.mp hsome
  have hall : (ds ++ es).find? (isOn name subject) = some first := by
    rw [List.find?_append, hfirst, Option.some_or]
  simp only [entryOn?, hall, Option.map_some, Option.some.injEq, exists_eq_left']
  exact ⟨first, List.mem_of_find?_eq_some hfirst, rfl⟩

theorem exists_later_of_entryOn? {es : List Directive} {d : Directive}
    (h : subject ∉ subjectsUnder name ds) (hd : entryOn? name subject (ds ++ es) = some d) :
    ∃ first ∈ es, d.lineNumber = first.lineNumber := by
  have hnone : ds.find? (isOn name subject) = none :=
    List.find?_eq_none.mpr fun e he hon => h (mem_subjectsUnder.mpr ⟨e, he, isOn_iff.mp hon⟩)
  obtain ⟨first, hfirst, rfl⟩ := Option.map_eq_some_iff.mp hd
  rw [List.find?_append, hnone, Option.none_or] at hfirst
  exact ⟨first, List.mem_of_find?_eq_some hfirst, rfl⟩

/-- The entries under a name stand in the order of the directives. -/
theorem entries_ascending (h : ds.Pairwise fun a b => a.lineNumber < b.lineNumber) (name : String) :
    ((subjectsUnder name ds).filterMap fun subject => entryOn? name subject ds).Pairwise
      fun a b => a.lineNumber < b.lineNumber := by
  have hfirsts : ((subjectsUnder name ds).filterMap
      fun subject => ds.find? (isOn name subject)).Sublist
      ds := by
    have hsublist := firsts_sublist Directive.subject (ds.filter fun d => d.name == name)
    have hfind (subject : String) : (ds.filter fun d => d.name == name).find?
        (fun d => d.subject == subject) = ds.find? (isOn name subject) := by
      rw [List.find?_filter]
      refine congrArg (ds.find? ·) (funext fun d => ?_)
      rw [isOn, Bool.decide_and, Bool.decide_eq_true, Bool.decide_eq_true]
    simp only [hfind] at hsublist
    exact hsublist.trans List.filter_sublist
  rw [← List.pairwise_map (f := lineNumber) (R := (· < ·)), List.map_filterMap]
  simp only [lineNumber_entryOn?]
  rw [← List.map_filterMap, List.pairwise_map]
  exact h.sublist hfirsts

end Directive

namespace Annotator

open Directive (subjectsUnder entryOn?)

variable {index : DirectiveIndex} {above later : List Directive}

/-- The heading at a line, where the directives above the line come before the others. -/
theorem headingFor_gathered (hindex : index.Gathers (above ++ later))
    (hascending : (above ++ later).Pairwise fun a b => a.lineNumber < b.lineNumber) {line : Nat}
    (habove : ∀ d ∈ above, d.lineNumber < line - 1) (hlater : ∀ d ∈ later, line - 1 ≤ d.lineNumber)
    (name : String) (lines : List String) (marker : String) :
    (new index name lines marker).headingFor line =
      (subjectsUnder name above).getLast?.bind
        fun subject => entryOn? name subject (above ++ later) := by
  have hsorted : (new index name lines marker).sections =
      (subjectsUnder name (above ++ later)).filterMap
      fun subject => entryOn? name subject (above ++ later) := by
    rw [new, hindex.get name]
    refine List.mergeSort_of_pairwise ?_
    exact (Directive.entries_ascending hascending name).imp
      fun hlt => decide_eq_true (Nat.le_of_lt hlt)
  obtain ⟨fresh, hsubjects, hfresh⟩ := Directive.subjectsUnder_append name above later
  -- a subject that appears above the line keeps its number there, a fresh one has its number below
  have hprecedes : ∀ d ∈ (subjectsUnder name above).filterMap
      (fun subject => entryOn? name subject (above ++ later)), d.precedes line = true := by
    intro d hd
    obtain ⟨subject, hsubject, hentry⟩ := List.mem_filterMap.mp hd
    obtain ⟨d', hd', first, hfirst, hnumber⟩ := Directive.exists_entryOn? hsubject later
    rw [hentry, Option.some.injEq] at hd'
    have hlt := habove first hfirst
    rw [Directive.precedes, decide_eq_true_eq, hd', hnumber]
    omega
  have hfollows : ∀ d ∈ fresh.filterMap fun subject => entryOn? name subject (above ++ later),
      ¬ d.precedes line = true := by
    intro d hd
    obtain ⟨subject, hsubject, hentry⟩ := List.mem_filterMap.mp hd
    obtain ⟨first, hfirst, hnumber⟩ :=
      Directive.exists_later_of_entryOn? (hfresh subject hsubject) hentry
    have hle := hlater first hfirst
    rw [Directive.precedes, decide_eq_true_eq, hnumber]
    omega
  have hnone : (fresh.filterMap fun subject => entryOn? name subject (above ++ later)).takeWhile
      (fun d => d.precedes line) = [] :=
    List.takeWhile_eq_nil_iff.mpr fun hlength => hfollows _ (List.getElem_mem hlength)
  rw [headingFor, hsorted, hsubjects, List.filterMap_append, List.takeWhile_append_of_pos hprecedes,
    hnone, List.append_nil, getLast?_filterMap]
  intro subject hsubject
  obtain ⟨d, hd, -⟩ := Directive.exists_entryOn? hsubject later
  rw [hd, Option.isSome_some]

end Annotator
end AspAtlas
