import AspAtlas.Statement.Annotation
import Mathlib.Data.List.DropRight
import Mathlib.Data.List.Forall2
/-!
Which comments a statement has, told from the lines of its file. Those above it come from the
longest run of blank and marked lines that ends right above the statement; the search from the
bottom finds this run, and no other run is as long.
-/
namespace AspAtlas

/-- The longest end of a list in which every item has a property. -/
structure IsLongestEnd {α : Type} (P : α → Prop) (xs block : List α) : Prop where
  suffix : block <:+ xs
  all : ∀ x ∈ block, P x
  longest : ∀ other, other <:+ xs → (∀ x ∈ other, P x) → other.length ≤ block.length

namespace IsLongestEnd

variable {α : Type} {P : α → Prop} {xs block other : List α}

theorem eq (h : IsLongestEnd P xs block) (hother : IsLongestEnd P xs other) : block = other := by
  have hle : block.length ≤ other.length := hother.longest block h.suffix h.all
  have hge : other.length ≤ block.length := h.longest other hother.suffix hother.all
  exact (List.suffix_of_suffix_length_le h.suffix hother.suffix hle).eq_of_length (by omega)

/-- The items that are taken from the end on are the longest such end. -/
theorem rtakeWhile {p : α → Bool} (hp : ∀ x, p x = true ↔ P x) (xs : List α) :
    IsLongestEnd P xs (xs.rtakeWhile p) where
  suffix := List.rtakeWhile_suffix p xs
  all x hx := (hp x).mp (List.mem_rtakeWhile_imp hx)
  longest := by
    rintro other ⟨before, rfl⟩ hother
    have htaken : (before ++ other).rtakeWhile p = before.rtakeWhile p ++ other := by
      rw [List.rtakeWhile, List.reverse_append, List.takeWhile_append_of_pos]
      · rw [List.reverse_append, List.reverse_reverse, List.rtakeWhile]
      · exact fun x hx => (hp x).mpr (hother x (List.mem_reverse.mp hx))
    rw [htaken, List.length_append]
    omega

end IsLongestEnd

namespace Annotator

variable {a : Annotator} {l : Location} {marker line comment : String} {cs : List Char}
  {block entries comments : List String}

/-- A line of nothing but blanks. -/
def IsBlank (line : String) : Prop := ∀ c ∈ line.toList, Text.isBlank c = true

instance : DecidablePred IsBlank := fun line =>
  inferInstanceAs (Decidable (∀ c ∈ line.toList, Text.isBlank c = true))

/-- Without its leading blanks a text starts with the marker, and the
comment is what follows, trimmed. -/
def Says (marker : String) (cs : List Char) (comment : String) : Prop :=
  ∃ rest, Text.trimStart cs = marker.toList ++ rest ∧ comment = String.ofList (Text.trim rest)

theorem isBlankLine_iff : isBlankLine line = true ↔ IsBlank line := by
  rw [isBlankLine, List.isEmpty_iff]
  exact List.dropWhile_eq_nil_iff

theorem commentOf?_eq_some_iff : commentOf? marker cs = some comment ↔ Says marker cs comment := by
  simp only [commentOf?, Option.map_eq_some_iff, Text.afterLead?_eq_some_iff, Says]
  exact exists_congr fun _ => and_congr_right fun _ => eq_comm

theorem Says.unique {other : String} (h : Says marker cs comment) (hother : Says marker cs other) :
    other = comment := by
  rw [← commentOf?_eq_some_iff] at h hother
  exact Option.some.inj (hother.symm.trans h)

theorem continues_iff : continues marker line = true ↔
    IsBlank line ∨ ∃ comment, Says marker line.toList comment := by
  rw [continues, Bool.or_eq_true, isBlankLine_iff, Option.isSome_iff_exists]
  simp only [commentOf?_eq_some_iff]

/-- The lines above a statement that belong to its comments, and what these and the text right
behind the statement say. A blank line says nothing, whatever the marker is. -/
structure Documents (a : Annotator) (l : Location) (above block entries : List String)
    (behind : Option String) : Prop where
  lead : above <+: a.lines
  length : above.length = min (l.begin.line - 1) a.lines.length
  run : IsLongestEnd (fun line => IsBlank line ∨ ∃ comment,
    Says a.commentMarker line.toList comment) above block
  said : List.Forall₂ (fun line comment => Says a.commentMarker line.toList comment)
    (block.filter fun line => ¬ IsBlank line) entries
  saidBehind : ∀ comment, behind = some comment ↔ ∃ line, 0 < l.stop.line ∧
    a.lines[l.stop.line - 1]? = some line ∧
    Says a.commentMarker (line.toList.drop (l.stop.column - 1)) comment

theorem commentBehind?_eq_some_iff :
    a.commentBehind? l.stop = some comment ↔ ∃ line, 0 < l.stop.line ∧
      a.lines[l.stop.line - 1]? = some line ∧
      Says a.commentMarker (line.toList.drop (l.stop.column - 1)) comment := by
  rw [commentBehind?]
  by_cases hzero : l.stop.line = 0
  · simp [hzero]
  · rw [if_neg hzero]
    cases hline : a.lines[l.stop.line - 1]? with
    | none => simp
    | some line => simp [commentOf?_eq_some_iff, Nat.pos_of_ne_zero hzero]

/-- The comments of some lines are what those of them say that are not blank. -/
theorem forall₂_says_iff (h : ∀ line ∈ block, continues marker line = true) :
    List.Forall₂ (fun line comment => Says marker line.toList comment)
      (block.filter fun line => ¬ IsBlank line) entries ↔
    entries = block.filterMap (lineComment? marker) := by
  induction block generalizing entries with
  | nil => simp
  | cons line rest ih =>
    obtain ⟨hline, hrest⟩ := List.forall_mem_cons.mp h
    by_cases hblank : IsBlank line
    · have hnone : lineComment? marker line = none := by
        rw [lineComment?, if_pos (isBlankLine_iff.mpr hblank)]
      rw [List.filter_cons_of_neg (by simpa using hblank), List.filterMap_cons_none hnone, ih hrest]
    · obtain ⟨comment, hsays⟩ := (continues_iff.mp hline).resolve_left hblank
      have hcomment : lineComment? marker line = some comment := by
        rw [lineComment?, if_neg (mt isBlankLine_iff.mp hblank), commentOf?_eq_some_iff.mpr hsays]
      rw [List.filter_cons_of_pos (by simpa using hblank), List.filterMap_cons_some hcomment,
        List.forall₂_cons_left_iff]
      constructor
      · rintro ⟨first, others, hfirst, hothers, rfl⟩
        rw [(ih hrest).mp hothers, hsays.unique hfirst]
      · rintro rfl
        exact ⟨comment, _, hsays, (ih hrest).mpr rfl, rfl⟩

theorem commentsAbove_eq (a : Annotator) (n : Nat) : a.commentsAbove n =
    ((a.lines.take (n - 1)).rtakeWhile (continues a.commentMarker)).filterMap
      (lineComment? a.commentMarker) := by
  rw [commentsAbove, commentsAtEnd, ← List.filterMap_reverse]
  rfl

/-- No line is looked at that is not there. -/
theorem commentsFor?_eq_some (a : Annotator) (l : Location) :
    a.commentsFor? l = some (a.commentsFor l) := by
  have hthere : min (l.line - 1) a.lines.length ≤ a.lines.length := Nat.min_le_right _ _
  rw [commentsFor?, commentsAbove?, firstItems?_of_le hthere, ← List.take_eq_take_min]
  rfl

/-- The comments of a statement are those above it, in order, and then the one behind it; all lines
that are looked at for them are there. -/
theorem commentsFor_eq_iff (a : Annotator) (l : Location) :
    a.commentsFor? l = some (a.commentsFor l) ∧
      ∀ comments, a.commentsFor l = comments ↔ ∃ above block entries behind,
        a.Documents l above block entries behind ∧ comments = entries ++ behind.toList := by
  refine ⟨commentsFor?_eq_some a l, fun comments => ?_⟩
  have hlines (line : String) : continues a.commentMarker line = true ↔
      Annotator.IsBlank line ∨ ∃ comment, Annotator.Says a.commentMarker line.toList comment :=
    continues_iff
  have hblock := IsLongestEnd.rtakeWhile hlines (a.lines.take (l.begin.line - 1))
  have hcontinues (line : String) (hline : line ∈ (a.lines.take (l.begin.line - 1)).rtakeWhile
      (continues a.commentMarker)) : continues a.commentMarker line = true :=
    List.mem_rtakeWhile_imp hline
  constructor
  · rintro rfl
    refine ⟨_, _, _, a.commentBehind? l.stop, ⟨List.take_prefix _ _, List.length_take, hblock,
      (forall₂_says_iff hcontinues).mpr rfl, fun _ => commentBehind?_eq_some_iff⟩, ?_⟩
    rw [commentsFor, commentsAbove_eq]
    rfl
  · rintro ⟨above, block, entries, behind, h, rfl⟩
    obtain rfl : above = a.lines.take (l.begin.line - 1) := by
      rw [List.prefix_iff_eq_take.mp h.lead, h.length, ← List.take_eq_take_min]
    obtain rfl := h.run.eq hblock
    have hbehind : a.commentBehind? l.stop = behind := by
      apply Option.ext
      intro comment
      rw [commentBehind?_eq_some_iff, h.saidBehind]
    rw [commentsFor, commentsAbove_eq, hbehind, (forall₂_says_iff hcontinues).mp h.said]
    rfl

/-- A line and the location of a statement on it, with an empty line above. -/
def belowEmptyLine : Annotator × Location :=
  (⟨[], ["", "a."], ""⟩, ⟨⟨"p.lp"⟩, ⟨2, 1⟩, ⟨2, 3⟩⟩)

/-- An empty marker starts every line, but a blank line above a statement is passed over. -/
theorem blank_line_not_commented :
    IsLongestEnd (fun line => IsBlank line ∨ ∃ comment, Says "" line.toList comment)
        (belowEmptyLine.1.lines.take (min (belowEmptyLine.2.begin.line - 1) 2)) [""] ∧
      Says belowEmptyLine.1.commentMarker "".toList "" ∧
      Says belowEmptyLine.1.commentMarker ("a.".toList.drop (belowEmptyLine.2.stop.column - 1)) "" ∧
      belowEmptyLine.1.commentsFor? belowEmptyLine.2 = some [""] ∧
      belowEmptyLine.1.commentsFor? belowEmptyLine.2 ≠ some ["", ""] := by
  have hempty : Says "" "".toList "" := ⟨[], by decide, by decide⟩
  have hcomments : belowEmptyLine.1.commentsFor? belowEmptyLine.2 = some [""] := by decide
  refine ⟨⟨List.suffix_refl _, ?_, ?_⟩, hempty, hempty, hcomments, ?_⟩
  · intro line hline
    rw [List.mem_singleton.mp hline]
    exact .inr ⟨"", hempty⟩
  · intro other hother _
    exact hother.length_le
  · rw [hcomments]
    decide

end Annotator
end AspAtlas
