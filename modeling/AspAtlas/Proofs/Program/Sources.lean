import AspAtlas.Program.Decoration
import AspAtlas.Proofs.Program.Headings
import AspAtlas.Proofs.Surface.Runs
import AspAtlas.Proofs.Text.Feeds
/-!
The source texts of statements. Line numbers count line feeds and lines are cut at them, so that the
lines a statement spans are there and show all of its text, in each of the files that were read.
-/
namespace AspAtlas

theorem Classification.kind_of_statement? {r : SymbolRegistry} {k : Nat} {n : Node} {s : Statement}
    (h : (ofNode r k n).statement? = some s) : n.kind ≠ .minimize := by
  intro hkind
  rw [ofNode, hkind] at h
  cases h

namespace Program

open Surface (Item Token WrittenAt advanceBy tokens tokensIn)

variable {config : AnalysisConfig} {fs : FileSystem} {root : Path} {text : String} {p : Program}
  {s : Statement}

/-- A statement of a program was read from the text of one of its files. -/
structure Origin (config : AnalysisConfig) (fs : FileSystem) (root : Path) (text : String)
    (s : Statement) (f : SourceFile) (content : String) (items : List Item)
    (node : Node) : Prop where
  path : f.path = s.sourceFile
  holds : (config.reader fs).Holds root text f.path content
  file : f = .ofText f.path content
  parsed : parseItems f.path content = .ok items
  mem : .statement node ∈ items
  kind : node.kind ≠ .minimize
  location : s.location = node.location

theorem Built.exists_origin (h : Built config fs root text p) (hs : s ∈ p.allStatements) :
    ∃ f ∈ p.sources, ∃ content items node, Origin config fs root text s f content items node := by
  obtain ⟨_, f, hf, -, hpath, -⟩ := h.annotated hs
  obtain ⟨source, hsource, hp⟩ := h.exists_source
  obtain ⟨extractor, content, items, numbered, -, hholds, htext, hparse, hnodes, hdocuments⟩ :=
    documents_of_readText hsource hp hf
  have hmem : s ∈ p.allStatements.filter fun t => t.isIn f.path :=
    List.mem_filter.mpr ⟨hs, Path.beq_iff.mpr (by rw [hpath])⟩
  rw [hdocuments.statements, List.mem_filterMap] at hmem
  obtain ⟨x, hx, hx'⟩ := hmem
  obtain ⟨bare, hbare, rfl⟩ := Option.map_eq_some_iff.mp hx'
  have hnode : x.2 ∈ statementsOf items := by
    rw [← hnodes]
    exact List.mem_map_of_mem hx
  refine ⟨f, hf, content, items, x.2, hpath, hholds, htext, hparse, mem_statementsOf.mp hnode,
    Classification.kind_of_statement? hbare, ?_⟩
  have hat := Classification.ofNode_at p.symbols x.1 x.2
  cases hc : Classification.ofNode p.symbols x.1 x.2 with
  | ignored | unclassifiable => simp [hc, Classification.statement?] at hbare
  | statement t =>
    rw [hc] at hat hbare
    cases hbare
    cases hat with
    | statement hlocation _ => exact hlocation

/-- The text of a statement reaches from its begin to its last token, and ends with a dot or a
closing bracket. -/
theorem Origin.exists_text {f : SourceFile} {content : String} {items : List Item} {node : Node}
    (h : Origin config fs root text s f content items node) :
    ∃ before own behind first last, content.toList = before ++ own ++ behind ∧
      (tokensIn content.toList s.location).head? = some first ∧
      (tokensIn content.toList s.location).getLast? = some last ∧
      first.begin = advanceBy Position.start before ∧
      last.stop = advanceBy Position.start (before ++ own) ∧ first.begin = s.location.begin ∧
      last.Closes ∧ last.stop ≤ s.location.stop ∧ ∃ c ∈ ['.', ']'], own.getLast? = some c := by
  obtain ⟨pre, own, post, last, htokens, hpost, hlast, hcloses, hbegin, hends⟩ :=
    exists_run_of_parseItems h.parsed h.mem h.kind
  rw [← h.location] at hbegin hends
  have hgap := Surface.stop_le_beginOf htokens hpost hlast
  have hstop : last.stop ≤ s.location.stop := by
    rcases hends with hend | hend <;> rw [hend]
    exact hgap
  have hnext : s.location.stop ≤ Surface.beginOf post := by
    rcases hends with hend | hend <;> rw [hend]
    exact hgap
  obtain ⟨before, written, behind, htext, -, hfirst, hend, hpunct⟩ :=
    Surface.exists_text_of_run htokens hlast hcloses.ne_finish
  have hin := Surface.tokensIn_eq htokens hpost hlast hbegin hstop hnext
  obtain ⟨first, run, hrun⟩ : ∃ first run, own = first :: run := by
    cases own with
    | nil => cases hlast
    | cons first run => exact ⟨first, run, rfl⟩
  have hhead : first.begin = Surface.beginOf own := by rw [hrun, Surface.beginOf]
  refine ⟨before, written, behind, first, last, htext, by rw [hin, hrun, List.head?_cons],
    by rw [hin, hlast], hhead.trans hfirst, hend, hhead.trans hbegin.symm, hcloses, hstop, ?_⟩
  rcases hcloses with hdot | hbracket
  · obtain ⟨written, rfl⟩ := hpunct _ hdot
    exact ⟨'.', by simp, by simp [Surface.Punct.text]⟩
  · obtain ⟨written, rfl⟩ := hpunct _ hbracket
    exact ⟨']', by simp, by simp [Surface.Punct.text]⟩

/-- The file of a statement is found by its path. -/
theorem Built.source?_of_mem (h : Built config fs root text p) {f : SourceFile} (hf : f ∈ p.sources)
    (hpath : f.path = s.sourceFile) : p.source? s.sourceFile = some f := by
  obtain ⟨source, hsource, hp⟩ := h.exists_source
  obtain ⟨_, _, -, -, hsources, -⟩ := ofSource_spec hp
  obtain ⟨_, _, hspliced⟩ := ProgramReader.exists_spliced hsource
  rw [source?, hsources]
  exact find?_path hspliced.distinct (hsources ▸ hf) (by rw [hpath])

theorem mem_attachSource (hs : s ∈ p.attachSource.allStatements) :
    ∃ t ∈ p.allStatements, s = { t with source := p.sourceText? t } := by
  rw [attachSource, allStatements, mapStatements, ← List.map_append, List.mem_map] at hs
  obtain ⟨t, ht, rfl⟩ := hs
  exact ⟨t, ht, rfl⟩

/-- With its lines there, the source text of a statement is made of them. -/
theorem sourceText?_eq {f : SourceFile} (hfile : p.source? s.sourceFile = some f)
    (hfirst : 1 ≤ s.location.begin.line)
    (hlines : s.location.begin.line ≤ min s.location.stop.line f.lines.length) :
    p.sourceText? s = some ("\n".intercalate
      ((f.lines.take (min s.location.stop.line f.lines.length)).drop
        (s.location.begin.line - 1))) := by
  obtain ⟨first, hline⟩ : ∃ k, s.location.begin.line = k + 1 :=
    ⟨s.location.begin.line - 1, by omega⟩
  rw [hline] at hlines
  simp only [sourceText?, hfile, hline, Option.bind_eq_bind, Option.bind_some]
  rw [if_pos (by omega), Nat.add_sub_cancel]

theorem toList_intercalate_feed (ls : List (List Char)) :
    ("\n".intercalate (ls.map String.ofList)).toList = Text.joinLines ls := by
  simp [Text.joinLines, String.toList_intercalate]

/-- Every statement has a source text: the lines from its first to its last one. They show the text
from its first to its last token. -/
theorem Built.source_shows_statement (h : Built config fs root text p)
    (hs : s ∈ p.attachSource.allStatements) :
    ∃ f ∈ p.sources, ∃ content shown own,
      f.path = s.sourceFile ∧ (config.reader fs).Holds root text f.path content ∧
      f = .ofText f.path content ∧ 1 ≤ s.location.begin.line ∧
      s.location.begin.line ≤ min s.location.stop.line f.lines.length ∧
      s.source = some shown ∧
      shown = "\n".intercalate
        ((f.lines.take (min s.location.stop.line f.lines.length)).drop
          (s.location.begin.line - 1)) ∧
      (tokensIn content.toList s.location).head?.map Token.begin = some s.location.begin ∧
      (∃ last, (tokensIn content.toList s.location).getLast? = some last ∧ last.Closes) ∧
      WrittenAt content.toList s.location own ∧ Text.plainFeeds own <:+: shown.toList := by
  obtain ⟨t, ht, rfl⟩ := mem_attachSource hs
  obtain ⟨f, hf, content, items, node, horigin⟩ := h.exists_origin ht
  obtain ⟨before, own, behind, first, last, htext, hhead, hlast, hfirst, hend, hbegin,
    hcloses, hstop, c, hc, hown⟩ := horigin.exists_text
  have hfeed : c ≠ '\n' := by rintro rfl; simp at hc
  have hreturn : c ≠ '\r' := by rintro rfl; simp at hc
  have hline : t.location.begin.line = 1 + before.count '\n' := by
    rw [← hbegin, hfirst, Text.line_advanceBy]
    rfl
  have hlastline : 1 + (before ++ own).count '\n' ≤ t.location.stop.line := by
    have hle : last.stop.line ≤ t.location.stop.line := by
      rw [Position.le_iff] at hstop
      omega
    rw [hend, Text.line_advanceBy] at hle
    exact hle
  have hlines : f.lines = (Text.lines content.toList).map String.ofList := by
    rw [horigin.file]
    rfl
  have hcount : (before ++ own).count '\n' < f.lines.length := by
    rw [hlines, List.length_map, htext]
    exact Text.count_feed_lt_length_lines behind (by simp [List.getLast?_append, hown]) hfeed
  have hbound : (before ++ own).count '\n' < min t.location.stop.line f.lines.length := by omega
  have hsource := h.source?_of_mem hf horigin.path
  have hfits : t.location.begin.line ≤ min t.location.stop.line f.lines.length := by
    rw [List.count_append] at hbound
    omega
  have hpositive : 1 ≤ t.location.begin.line := by omega
  refine ⟨f, hf, content, _, own, horigin.path, horigin.holds, horigin.file, hpositive, hfits,
    sourceText?_eq hsource hpositive hfits, rfl, by rw [hhead, Option.map_some, hbegin],
    ⟨last, hlast, hcloses⟩, ?_, ?_⟩
  · exact ⟨before, behind, first, last, htext, hhead, hlast, hfirst, hend⟩
  · have hshown := Text.plainFeeds_infix_joinLines before behind hown hfeed hreturn hbound
    rw [hlines, ← List.map_take, ← List.map_drop, toList_intercalate_feed, htext, hline,
      Nat.add_sub_cancel_left]
    rwa [hlines, htext] at hshown

/-- A statement over several lines with all sorts of line ends, one of them inside a quoted text;
the text has no final line feed. -/
def severalLines : String := "a.\r\nb(\"\u00e9\r\n\u2603\") :-\r c,\r\n  d."

/-- A carriage return that no line feed follows stays where it is. -/
theorem source_shows_statement_of_severalLines :
    ∃ p s, Built {} (.ofFiles []) ⟨"p.lp"⟩ severalLines p ∧ s ∈ p.attachSource.allStatements ∧
      s.source = some "b(\"\u00e9\n\u2603\") :-\r c,\n  d." := by
  obtain ⟨p, hbuilt, hsources, hlines⟩ := exists_built_of_map {} (.ofFiles []) ⟨"p.lp"⟩ severalLines
    (fun p => p.attachSource.allStatements.map
      fun s => (s.location.begin.line, s.location.stop.line))
    (a := [(1, 1), (2, 4)]) (by decide +kernel)
  have hmem : (2, 4) ∈ p.attachSource.allStatements.map
      fun s => (s.location.begin.line, s.location.stop.line) := by
    rw [hlines]
    decide
  obtain ⟨s, hs, hline⟩ := List.mem_map.mp hmem
  obtain ⟨hbegin, hstop⟩ := Prod.mk.inj hline
  obtain ⟨f, hf, content, shown, own, -, -, -, -, -, hsource, hshown, -⟩ :=
    hbuilt.source_shows_statement hs
  rw [hsources, List.mem_singleton] at hf
  refine ⟨p, s, hbuilt, hs, hsource.trans (congrArg some ?_)⟩
  rw [hshown, hf, hbegin, hstop]
  decide +kernel

end Program
end AspAtlas
