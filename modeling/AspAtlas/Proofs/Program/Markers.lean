import AspAtlas.Proofs.Program.Sources
/-!
What documentation is taken from. The lines of a file are searched for markers without regard to
what stands there: a marker behind a statement starts a comment, one at the start of a line above a
statement does so exactly if the line does not start within a quoted text or a block comment. Its
line may reach over a carriage return, which ends a comment.
-/
namespace AspAtlas

open Surface (joints gap? inLine advanceBy comment)
open Text (isBlank trim trimStart restOfLine)

namespace Surface

variable {cs inside : List Char}

/-- A comment that starts with a marker ends with its line. -/
theorem gap?_marker (inside : List Char) :
    gap? ('%' :: '-' :: inside) =
      some ('%' :: '-' :: inside.takeWhile inLine, inside.dropWhile inLine) := by
  have hline : comment ('-' :: inside) =
      ('-' :: inside.takeWhile inLine, inside.dropWhile inLine) := by
    rw [comment_eq_line (by simp)]
    rfl
  simp [gap?, isSpace, hline]

/-- A text has a comment that starts with a marker, and what the comment says is an entry. -/
def HasComment (cs inside : List Char) (entry : String) : Prop :=
  '%' :: '-' :: inside ∈ joints cs ∧ ∃ words behind,
    gap? ('%' :: '-' :: inside) = some ('%' :: '-' :: words, behind) ∧
      entry = String.ofList (trim words)

/-- The line of a comment goes on behind it. -/
def OutlivesComment (inside : List Char) : Prop :=
  ∃ c ∈ (restOfLine inside).dropWhile inLine, isBlank c = false

/-- Up to a carriage return a comment and its line are the same. -/
theorem takeWhile_restOfLine (cs : List Char) :
    (restOfLine cs).takeWhile inLine = cs.takeWhile inLine := by
  induction cs with
  | nil => rfl
  | cons c cs ih =>
    rcases Text.lines_cons_cases c cs with rfl | ⟨rfl, hfeed⟩ | ⟨hc, hother⟩
    · rw [Text.restOfLine_feed]
      rfl
    · rw [Text.restOfLine_return hfeed]
      rfl
    · rw [Text.restOfLine_cons hc hother, List.takeWhile_cons, List.takeWhile_cons, ih]

/-- A comment says what its line shows, unless the line goes on behind it. -/
theorem hasComment_iff {entry : String}
    (hentry : entry = String.ofList (trim (restOfLine inside))) :
    HasComment cs inside entry ↔ '%' :: '-' :: inside ∈ joints cs ∧ ¬ OutlivesComment inside := by
  have hline := List.takeWhile_append_dropWhile (p := inLine) (l := restOfLine inside)
  rw [takeWhile_restOfLine] at hline
  have hsame : entry = String.ofList (trim (inside.takeWhile inLine)) ↔
      ¬ OutlivesComment inside := by
    rw [hentry, String.ofList_inj, ← hline, Text.trim_append_eq_iff, OutlivesComment]
    simp
  rw [← hsame, HasComment, gap?_marker]
  refine and_congr_right fun _ => ⟨?_, fun h => ⟨_, _, rfl, h⟩⟩
  rintro ⟨words, behind, hgap, h⟩
  simp only [Option.some.injEq, Prod.mk.injEq, List.cons.injEq, true_and] at hgap
  rw [hgap.1]
  exact h

end Surface

namespace Program

variable {fs : FileSystem} {root : Path} {text : String} {p : Program} {s : Statement}
  {content : List Char} {entry : String}

/-- An entry is what a line shows behind a marker, which stands behind blanks. -/
structure Marker (content before blanks inside : List Char) (entry : String) : Prop where
  text : content = before ++ (blanks ++ '%' :: '-' :: inside)
  blanks : ∀ b ∈ blanks, isBlank b = true
  entry : entry = String.ofList (trim (restOfLine inside))

/-- The marker of a comment that was found in what is left of a line. -/
theorem exists_marker (before : List Char) {rest : List Char}
    (h : Annotator.commentOf? "%-" (restOfLine rest) = some entry) :
    ∃ blanks inside, Marker (before ++ rest) before blanks inside entry := by
  simp only [Annotator.commentOf?, Option.map_eq_some_iff] at h
  obtain ⟨shown, hlead, hentry⟩ := h
  have hmarked : restOfLine rest =
      ((restOfLine rest).takeWhile isBlank ++ ['%', '-']) ++ shown := by
    have hsplit := List.takeWhile_append_dropWhile (p := isBlank) (l := restOfLine rest)
    rw [Text.afterLead?_eq_some_iff] at hlead
    rw [List.append_assoc]
    conv_lhs => rw [← hsplit]
    exact congrArg _ hlead
  obtain ⟨inside, hrest, hinside⟩ := Text.exists_of_restOfLine hmarked
  refine ⟨(restOfLine rest).takeWhile isBlank, inside, ?_, ?_, ?_⟩
  · rw [List.append_cancel_left_eq]
    simpa using hrest
  · exact fun b hb => List.mem_takeWhile_imp hb
  · rw [hinside, hentry]

/-- A marker behind the blanks of a line starts a comment exactly if the line starts at a joint. -/
theorem Marker.mem_joints_iff {before blanks inside : List Char}
    (h : Marker content before blanks inside entry)
    (hbefore : before = [] ∨ before.getLast? = some '\n') :
    '%' :: '-' :: inside ∈ joints content ↔ blanks ++ '%' :: '-' :: inside ∈ joints content := by
  constructor
  · intro hjoint
    rw [h.text] at hjoint ⊢
    exact Surface.lineStart_mem_joints hbefore h.blanks hjoint
  · exact fun hjoint => Surface.mem_joints_of_blanks hjoint h.blanks

/-- A comment on one of the first lines of a file has its marker at the start of that line. -/
theorem exists_marker_above {file : String} {n : Nat} {line : String}
    (hline : line ∈ (Text.linesOf file).take n)
    (h : Annotator.commentOf? "%-" line.toList = some entry) :
    ∃ before blanks inside, Marker file.toList before blanks inside entry ∧
      (before = [] ∨ before.getLast? = some '\n') ∧ before.count '\n' < n := by
  obtain ⟨i, hi, hget⟩ := List.mem_take_iff_getElem.mp hline
  have hget : (Text.linesOf file)[i]? = some line := by
    rw [← hget]
    exact List.getElem?_eq_getElem (by omega)
  rw [Text.linesOf, List.getElem?_map, Option.map_eq_some_iff] at hget
  obtain ⟨shown, hshown, rfl⟩ := hget
  rw [String.toList_ofList] at h
  obtain ⟨before, rest, htext, hbefore, hcount, rfl⟩ := Text.exists_lineStart hshown
  obtain ⟨blanks, inside, hmarker⟩ := exists_marker before h
  exact ⟨before, blanks, inside, htext ▸ hmarker, hbefore, by omega⟩

/-- A statement ends at a joint. -/
theorem Origin.exists_stop {config : AnalysisConfig} {f : SourceFile} {file : String}
    {items : List Surface.Item} {node : Node} (h : Origin config fs root text s f file items node) :
    ∃ before behind, file.toList = before ++ behind ∧ behind ∈ joints file.toList ∧
      s.location.stop = advanceBy Position.start before := by
  obtain ⟨pre, own, post, last, htokens, hpost, hlast, hcloses, -, hstop⟩ :=
    exists_run_of_parseItems h.parsed h.mem h.kind
  rw [← h.location] at hstop
  rcases hstop with hstop | hstop
  · obtain ⟨before, written, behind, htext, hjoint, -, hend, -⟩ :=
      Surface.exists_text_of_run htokens hlast hcloses.ne_finish
    exact ⟨before ++ written, behind, htext, hjoint, hstop.trans hend⟩
  · obtain ⟨next, more, rfl⟩ := List.exists_cons_of_ne_nil hpost
    obtain ⟨before, behind, htext, hjoint, -, hbegin, -⟩ := Surface.exists_split_of_lex htokens
    exact ⟨before, behind, htext, hjoint, hstop.trans hbegin⟩

/-- The marker of the comment behind a statement starts there, and starts a comment. -/
theorem Origin.exists_marker_behind {config : AnalysisConfig} {f : SourceFile} {file : String}
    {items : List Surface.Item} {node : Node} (h : Origin config fs root text s f file items node)
    {a : Annotator} (hlines : a.lines = Text.linesOf file) (hmarker : a.commentMarker = "%-")
    (hentry : a.commentBehind? s.location.stop = some entry) :
    ∃ before blanks inside, Marker file.toList before blanks inside entry ∧
      s.location.stop = advanceBy Position.start before ∧ '%' :: '-' ::
        inside ∈ joints file.toList := by
  obtain ⟨before, behind, htext, hjoint, hstop⟩ := h.exists_stop
  rw [Annotator.commentBehind?, hlines, hmarker, hstop] at hentry
  split at hentry
  · cases hentry
  · split at hentry
    · rename_i line hline
      rw [Text.linesOf, htext, List.getElem?_map, Option.map_eq_some_iff] at hline
      obtain ⟨shown, hshown, rfl⟩ := hline
      rw [String.toList_ofList, Text.drop_of_line_at before behind hshown] at hentry
      obtain ⟨blanks, inside, hmarked⟩ := exists_marker before hentry
      have hbehind : behind = blanks ++ '%' :: '-' :: inside :=
        List.append_cancel_left hmarked.text
      refine ⟨before, blanks, inside, htext ▸ hmarked, hstop, ?_⟩
      exact Surface.mem_joints_of_blanks (hbehind ▸ hjoint) hmarked.blanks
    · cases hentry

/-- What the comments above a statement are taken from. -/
theorem exists_line_of_commentsAbove {a : Annotator} {n : Nat} (h : entry ∈ a.commentsAbove n) :
    ∃ line ∈ a.lines.take (n - 1), Annotator.commentOf? a.commentMarker line.toList =
      some entry := by
  rw [Annotator.commentsAbove, Annotator.commentsAtEnd, List.mem_reverse, List.mem_filterMap] at h
  obtain ⟨line, hline, hcomment⟩ := h
  refine ⟨line, List.mem_reverse.mp ((List.takeWhile_sublist _).subset hline), ?_⟩
  rw [Annotator.lineComment?] at hcomment
  split at hcomment
  · cases hcomment
  · exact hcomment

/-- Documentation is taken from markers: some at the starts of lines above a statement, one
behind the statement. The marker behind it starts a comment; one above it does so exactly if
its line starts at a joint. An entry is what that comment says unless the line of the marker
goes on behind the comment. -/
theorem Built.comments_from_markers (h : Built {} fs root text p) (hs : s ∈ p.allStatements) :
    ∃ f ∈ p.sources, ∃ (file : String) (above behind : List String),
      f.path = s.sourceFile ∧ (AnalysisConfig.reader {} fs).Holds root text f.path file ∧
      f = .ofText f.path file ∧ s.comments = above ++ behind ∧
      (∀ entry ∈ above, ∃ before blanks inside, Marker file.toList before blanks inside entry ∧
        (before = [] ∨ before.getLast? = some '\n') ∧
        (advanceBy Position.start before).line < s.location.line ∧
        (Surface.HasComment file.toList inside entry ↔
          blanks ++ '%' :: '-' :: inside ∈ joints file.toList ∧ ¬ Surface.OutlivesComment inside)) ∧
      ∀ entry ∈ behind, ∃ before blanks inside, Marker file.toList before blanks inside entry ∧
        s.location.stop = advanceBy Position.start before ∧
        (Surface.HasComment file.toList inside entry ↔ ¬ Surface.OutlivesComment inside) := by
  obtain ⟨extractor, f, hf, -, hpath, -, hcomments⟩ := h.annotated hs
  obtain ⟨g, hg, file, items, node, horigin⟩ := h.exists_origin hs
  obtain rfl : f = g := Option.some.inj
    ((h.source?_of_mem hf hpath).symm.trans (h.source?_of_mem hg horigin.path))
  have hlines : (annotatorOf extractor {} f).lines = Text.linesOf file := by
    rw [annotatorOf, Annotator.new, horigin.file]
    rfl
  refine ⟨f, hf, file, _, _, hpath, horigin.holds, horigin.file, hcomments, ?_, ?_⟩
  · intro entry hentry
    obtain ⟨line, hline, hcomment⟩ := exists_line_of_commentsAbove hentry
    rw [hlines] at hline
    obtain ⟨before, blanks, inside, hmarker, hbefore, hcount⟩ := exists_marker_above hline hcomment
    refine ⟨before, blanks, inside, hmarker, hbefore, ?_, ?_⟩
    · have hline : (advanceBy Position.start before).line = 1 + before.count '\n' :=
        Text.line_advanceBy Position.start before
      omega
    · rw [Surface.hasComment_iff hmarker.entry, hmarker.mem_joints_iff hbefore]
  · intro entry hentry
    obtain ⟨before, blanks, inside, hmarker, hstop, hjoint⟩ :=
      horigin.exists_marker_behind hlines rfl (Option.mem_toList.mp hentry)
    refine ⟨before, blanks, inside, hmarker, hstop, ?_⟩
    rw [Surface.hasComment_iff hmarker.entry]
    exact and_iff_right hjoint

theorem comments_from_markers_of_note :
    ∃ p s, Built {} (.ofFiles []) ⟨"p.lp"⟩ "%- note\na. %- more" p ∧ s ∈ p.allStatements ∧
      ∃ above behind, s.comments = above ++ behind ∧ above ++ behind = ["note", "more"] ∧
        ∀ entry ∈ behind, ∃ inside,
          Surface.HasComment "%- note\na. %- more".toList inside entry ↔
            ¬ Surface.OutlivesComment inside := by
  obtain ⟨p, hbuilt, hsources, hcomments⟩ := exists_built_of_map {} (.ofFiles []) ⟨"p.lp"⟩
    "%- note\na. %- more" (fun p => p.allStatements.map (·.comments)) (a := [["note", "more"]])
    (by decide +kernel)
  have hmem : ["note", "more"] ∈ p.allStatements.map (·.comments) := by
    rw [hcomments]
    decide
  obtain ⟨s, hs, hnotes⟩ := List.mem_map.mp hmem
  obtain ⟨f, hf, file, above, behind, -, hholds, hfile, hsplit, -, hbehind⟩ :=
    hbuilt.comments_from_markers hs
  rw [hsources, List.mem_singleton] at hf
  subst hf
  obtain rfl := hholds.unique (.root rfl)
  refine ⟨p, s, hbuilt, hs, above, behind, hsplit, hsplit.symm.trans hnotes, fun entry hentry => ?_⟩
  obtain ⟨_, _, inside, -, -, hiff⟩ := hbehind entry hentry
  exact ⟨inside, hiff⟩

/-- A line of a quoted text looks like a comment. -/
def quotedMarker : String := "p(\"\n%- x\").\na."

/-- A statement is documented with a part of a quoted text, though no comment has a marker. -/
theorem quoted_marker_documents :
    ∃ p s, Built {} (.ofFiles []) ⟨"p.lp"⟩ quotedMarker p ∧ s ∈ p.allStatements ∧
      s.comments = ["x\")."] ∧
        ∀ inside entry, ¬ Surface.HasComment quotedMarker.toList inside entry := by
  obtain ⟨p, hbuilt, -, hcomments⟩ := exists_built_of_map {} (.ofFiles []) ⟨"p.lp"⟩ quotedMarker
    (fun p => p.allStatements.map (·.comments)) (a := [[], ["x\")."]]) (by decide +kernel)
  have hmem : ["x\")."] ∈ p.allStatements.map (·.comments) := by
    rw [hcomments]
    decide
  obtain ⟨s, hs, hnotes⟩ := List.mem_map.mp hmem
  refine ⟨p, s, hbuilt, hs, hnotes, ?_⟩
  rintro inside entry ⟨hjoint, -⟩
  have hnone : ∀ rest ∈ joints quotedMarker.toList, rest.take 2 ≠ ['%', '-'] := by decide +kernel
  exact hnone _ hjoint rfl

end Program
end AspAtlas
