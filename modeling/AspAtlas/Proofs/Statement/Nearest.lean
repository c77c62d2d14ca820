import AspAtlas.Statement.Annotation
import Mathlib.Data.List.TakeWhile
/-!
Headings from section directives in any order. The directives are sorted by their lines, which keeps
those of one line in their order; so the heading at a line is the last directive on the greatest
line above it, and further down headings never go back.
-/
namespace AspAtlas

/-- A test that holds up to some place is passed by the beginning up to that place. -/
theorem filter_eq_takeWhile {α : Type} {p : α → Bool} {xs : List α}
    (h : xs.Pairwise fun x y => p y = true → p x = true) : xs.filter p = xs.takeWhile p := by
  induction xs with
  | nil => rfl
  | cons x rest ih =>
    obtain ⟨hx, hrest⟩ := List.pairwise_cons.mp h
    by_cases hp : p x = true
    · simp only [List.filter_cons, List.takeWhile_cons, hp, if_true, ih hrest]
    · have hnone : ∀ y ∈ rest, ¬ p y = true := fun y hy hpy => hp (hx y hy hpy)
      simp only [List.filter_cons, List.takeWhile_cons, hp, if_false, Bool.false_eq_true]
      exact List.filter_eq_nil_iff.mpr hnone

namespace Directive

/-- Of some directives, the last one on the greatest line above a one-based line. -/
structure IsNearest (ds : List Directive) (line : Nat) (d : Directive) : Prop where
  above : d.lineNumber + 1 < line
  greatest : ∀ e ∈ ds, e.lineNumber + 1 < line → e.lineNumber ≤ d.lineNumber
  last : (ds.filter fun e => e.lineNumber == d.lineNumber).getLast? = some d

variable {ds : List Directive} {line later : Nat} {d e : Directive}

theorem precedes_iff : d.precedes line = true ↔ d.lineNumber + 1 < line := by
  simp [precedes]

theorem precedes?_eq_some (h : IsWord (d.lineNumber + 1)) (line : Nat) :
    d.precedes? line = some (d.precedes line) := by
  rw [precedes?, addWords?_of_isWord h]
  rfl

theorem IsNearest.mem (h : IsNearest ds line d) : d ∈ ds := by
  have hmem := List.mem_of_getLast? h.last
  exact (List.mem_filter.mp hmem).1

theorem IsNearest.unique (hd : IsNearest ds line d) (he : IsNearest ds line e) : d = e := by
  have hle := he.greatest d hd.mem hd.above
  have hge := hd.greatest e he.mem he.above
  have hline : d.lineNumber = e.lineNumber := by omega
  have hlast := hd.last
  rw [hline] at hlast
  exact Option.some.inj (hlast.symm.trans he.last)

/-- Further down, what is nearest stands no higher. -/
theorem IsNearest.mono (hd : IsNearest ds line d) (hle : line ≤ later) (he : IsNearest ds later e) :
    d.lineNumber ≤ e.lineNumber := by
  apply he.greatest d hd.mem
  have habove := hd.above
  omega

end Directive

namespace Annotator

open Directive (IsNearest precedes_iff)

variable {index : DirectiveIndex} {name marker : String} {lines : List String} {line : Nat}
    {d : Directive}

theorem mem_sections : d ∈ (new index name lines marker).sections ↔ d ∈ index.get name :=
  List.mem_mergeSort

theorem line_le_trans (a b c : Directive) (hab : decide (a.lineNumber ≤ b.lineNumber) = true)
    (hbc : decide (b.lineNumber ≤ c.lineNumber) = true) :
    decide (a.lineNumber ≤ c.lineNumber) = true := by
  rw [decide_eq_true_eq] at hab hbc ⊢
  omega

theorem line_le_total (a b : Directive) :
    (decide (a.lineNumber ≤ b.lineNumber) || decide (b.lineNumber ≤ a.lineNumber)) = true := by
  rw [Bool.or_eq_true, decide_eq_true_eq, decide_eq_true_eq]
  omega

theorem sections_ascending (index : DirectiveIndex) (name : String) (lines : List String)
    (marker : String) :
    (new index name lines marker).sections.Pairwise fun a b => a.lineNumber ≤ b.lineNumber := by
  have hsorted := List.pairwise_mergeSort line_le_trans line_le_total (index.get name)
  exact hsorted.imp fun h => decide_eq_true_eq.mp h

/-- Sorting keeps the directives of one line in their order. -/
theorem sections_onLine (index : DirectiveIndex) (name : String) (lines : List String)
    (marker : String)
    (n : Nat) : (new index name lines marker).sections.filter (fun d => d.lineNumber == n) =
      (index.get name).filter fun d => d.lineNumber == n := by
  have hlines : ((index.get name).filter fun d => d.lineNumber == n).Pairwise
      fun a b => decide (a.lineNumber ≤ b.lineNumber) = true := by
    apply List.pairwise_of_forall_mem_list
    intro a ha b hb
    have han := beq_iff_eq.mp (List.mem_filter.mp ha).2
    have hbn := beq_iff_eq.mp (List.mem_filter.mp hb).2
    exact decide_eq_true (by omega)
  have hkept : ((index.get name).filter fun d => d.lineNumber == n).Sublist
      (new index name lines marker).sections :=
    List.sublist_mergeSort line_le_trans line_le_total hlines List.filter_sublist
  have hwithin := hkept.filter fun d => d.lineNumber == n
  rw [List.filter_filter] at hwithin
  simp only [Bool.and_self] at hwithin
  have hperm : (new index name lines marker).sections.Perm (index.get name) :=
    List.mergeSort_perm _ _
  have hlength := (hperm.filter fun d => d.lineNumber == n).length_eq
  exact (hwithin.eq_of_length hlength.symm).symm

/-- The section directives above a line are the first ones by ascending lines. -/
theorem headingFor_new (index : DirectiveIndex) (name : String) (lines : List String)
    (marker : String) (line : Nat) : (new index name lines marker).headingFor line =
      ((new index name lines marker).sections.filter fun d => d.precedes line).getLast? := by
  have hdownward : (new index name lines marker).sections.Pairwise
      fun a b => b.precedes line = true → a.precedes line = true := by
    apply (sections_ascending index name lines marker).imp
    intro a b hab hb
    rw [precedes_iff] at hb ⊢
    omega
  rw [filter_eq_takeWhile hdownward]
  rfl

theorem headingFor_eq_none_iff : (new index name lines marker).headingFor line = none ↔
    ∀ d ∈ index.get name, ¬ d.lineNumber + 1 < line := by
  rw [headingFor_new, List.getLast?_eq_none_iff, List.filter_eq_nil_iff]
  simp only [mem_sections, precedes_iff]

theorem isNearest_of_headingFor (h : (new index name lines marker).headingFor line = some d) :
    IsNearest (index.get name) line d := by
  have hascending := sections_ascending index name lines marker
  rw [headingFor_new] at h
  obtain ⟨front, hfront⟩ := List.getLast?_eq_some_iff.mp h
  have habove : d.lineNumber + 1 < line := by
    have hmem := List.mem_of_getLast? h
    exact precedes_iff.mp (List.mem_filter.mp hmem).2
  constructor
  · exact habove
  · intro e he hlt
    have hmem : e ∈ front ++ [d] := by
      rw [← hfront]
      exact List.mem_filter.mpr ⟨mem_sections.mpr he, precedes_iff.mpr hlt⟩
    have hsorted := hascending.filter fun d => d.precedes line
    rw [hfront] at hsorted
    rcases List.mem_append.mp hmem with hin | hin
    · exact (List.pairwise_append.mp hsorted).2.2 e hin d (List.mem_singleton_self d)
    · rw [List.mem_singleton.mp hin]
  · -- what stands on the line of `d` stands above the given line, so it is in the part that ends
    -- with `d`
    have honline : (new index name lines marker).sections.filter
        (fun e => e.lineNumber == d.lineNumber) =
        (front ++ [d]).filter fun e => e.lineNumber == d.lineNumber := by
      rw [← hfront, List.filter_filter]
      apply List.filter_congr
      intro e _
      by_cases he : e.lineNumber = d.lineNumber
      · simp [he, Directive.precedes, habove]
      · simp [he]
    rw [← sections_onLine, honline]
    simp

theorem headingFor_eq_some_iff :
    (new index name lines marker).headingFor line = some d ↔ IsNearest (index.get name) line d := by
  constructor
  · exact isNearest_of_headingFor
  · intro hd
    cases h : (new index name lines marker).headingFor line with
    | none => exact absurd hd.above (headingFor_eq_none_iff.mp h d hd.mem)
    | some e => rw [(isNearest_of_headingFor h).unique hd]

/-- As long as the one-based lines of the section directives have 64 bits, there is a result. -/
theorem headingFor?_eq_some (h : ∀ d ∈ index.get name, IsWord (d.lineNumber + 1)) (line : Nat) :
    (new index name lines marker).headingFor? line =
      some ((new index name lines marker).headingFor line) := by
  have htests : ∀ d ∈ (new index name lines marker).sections,
      d.precedes? line = some (d.precedes line) :=
    fun d hd => Directive.precedes?_eq_some (h d (mem_sections.mp hd)) line
  rw [headingFor?, takeWhile?_eq_some htests]
  rfl

/-- Whatever the order of the section directives, there is no heading at a line exactly if none of
them stands above it, and else it is the last one on the greatest line above. At a later line there
is a heading too, and it stands no higher. Lines that fit 64 bits can be compared. -/
theorem headingFor_nearest (index : DirectiveIndex) (name : String) (lines : List String)
    (marker : String) (hlines : ∀ d ∈ index.get name, IsWord (d.lineNumber + 1)) (line : Nat) :
    (new index name lines marker).headingFor? line =
        some ((new index name lines marker).headingFor line) ∧
      ((new index name lines marker).headingFor line = none ↔
        ∀ d ∈ index.get name, ¬ d.lineNumber + 1 < line) ∧
      (∀ d, (new index name lines marker).headingFor line = some d ↔
        IsNearest (index.get name) line d) ∧
      ∀ d later, line ≤ later → (new index name lines marker).headingFor line = some d →
        ∃ e, (new index name lines marker).headingFor later = some e ∧
          d.lineNumber ≤ e.lineNumber := by
  refine ⟨headingFor?_eq_some hlines line, headingFor_eq_none_iff,
    fun d => headingFor_eq_some_iff, ?_⟩
  intro d later hle h
  have hd := isNearest_of_headingFor h
  cases hlater : (new index name lines marker).headingFor later with
  | none =>
    have hbelow := headingFor_eq_none_iff.mp hlater d hd.mem
    have habove := hd.above
    omega
  | some e => exact ⟨e, rfl, hd.mono hle (isNearest_of_headingFor hlater)⟩

/-- A section directive on a line. -/
def opening (subject : String) (lineNumber : Nat) : Directive :=
  ⟨"section", [subject], none, lineNumber, ⟨"p.lp"⟩⟩

/-- Section directives out of order, two of them on one line. -/
def shuffled : DirectiveIndex :=
  ⟨[⟨"section", [opening "A" 4, opening "D" 7, opening "B" 1, opening "C" 4]⟩]⟩

/-- Of the two directives on the fourth line the later one is the
heading, until one stands below. -/
theorem headingFor_nearest_of_shuffled :
    (∀ d ∈ shuffled.get "section", IsWord (d.lineNumber + 1)) ∧ 6 ≤ 9 ∧
      (new shuffled "section" [] "%-").headingFor? 6 = some (some (opening "C" 4)) ∧
      ∃ e, (new shuffled "section" [] "%-").headingFor 9 = some e ∧ 4 ≤ e.lineNumber := by
  have hlines : ∀ d ∈ shuffled.get "section", IsWord (d.lineNumber + 1) := by decide
  obtain ⟨hsome, -, hnearest, hlater⟩ := headingFor_nearest shuffled "section" [] "%-" hlines 6
  have hheading : (new shuffled "section" [] "%-").headingFor 6 = some (opening "C" 4) := by
    apply (hnearest _).mpr
    exact ⟨by decide, by decide, rfl⟩
  rw [hheading] at hsome
  exact ⟨hlines, by decide, hsome, hlater _ 9 (by decide) hheading⟩

end Annotator
end AspAtlas
