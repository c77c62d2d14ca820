import AspAtlas.Proofs.Directive.Reading
import AspAtlas.Proofs.Program.Headings
/-!
What accepted settings are good for. They always give an extractor; directives are found under the
names that are set, and comments behind the marker that is set, under conditions on these texts that
are not checked.
-/
namespace AspAtlas

open Text (OpensPlainly IsPlainWord)

namespace AnalysisConfig

/-- The names of directives that are set. -/
def directiveNames (c : AnalysisConfig) : List String :=
  [c.predicateDirective, c.variableDirective, c.sectionDirective]

/-- The names of directives are among the settings that must not be blank. -/
theorem directiveNames_subset (c : AnalysisConfig) : c.directiveNames ⊆ c.texts.map Prod.snd := by
  simp [directiveNames, texts]

/-- The extractor for the markers that are set. -/
def extractor (c : AnalysisConfig) : DirectiveExtractor := ⟨c.directiveMarker, c.descriptionMarker⟩

/-- Accepted settings have no blank text and no blank marker. -/
theorem fault?_eq_none {c : AnalysisConfig} (h : c.fault? = none) :
    (∀ x ∈ c.texts, (Text.trim x.2.toList).isEmpty = false) ∧
      Text.isBlank c.directiveMarker = false := by
  rw [fault?] at h
  split at h
  · cases h
  split at h
  · cases h
  · rename_i hfind
    split at h
    · cases h
    · rename_i hmarker
      refine ⟨fun x hx => ?_, Bool.eq_false_iff.mpr hmarker⟩
      exact Bool.eq_false_iff.mpr (List.find?_eq_none.mp hfind x hx)

end AnalysisConfig

namespace Config

variable {c : Config}

theorem validate_eq_ok_iff : c.validate = .ok () ↔ c.analysis.fault? = none := by
  rw [validate]
  cases c.analysis.fault? <;> simp

theorem extractor_of_validate (h : c.validate = .ok ()) :
    DirectiveExtractor.new c.analysis.directiveMarker c.analysis.descriptionMarker =
      .ok c.analysis.extractor := by
  obtain ⟨htexts, -⟩ := AnalysisConfig.fault?_eq_none (validate_eq_ok_iff.mp h)
  have hmarker := htexts ("analysis.description_marker", c.analysis.descriptionMarker)
    (by simp [AnalysisConfig.texts])
  rw [DirectiveExtractor.new, hmarker, if_neg Bool.false_ne_true]
  rfl

end Config

namespace Annotator

variable {a : Annotator} {comment : String}

/-- A line with a comment marker and a plain word counts as a comment exactly if the marker does not
start with a blank. -/
theorem commentOf?_marked {marker : List Char} (hne : marker ≠ [])
    (h : IsPlainWord comment.toList) :
    (OpensPlainly marker → commentOf? (String.ofList marker) (marker ++ ' ' :: comment.toList) =
      some comment) ∧
    (¬ OpensPlainly marker →
      commentOf? (String.ofList marker) (marker ++ ' ' :: comment.toList) = none) := by
  rw [commentOf?, String.toList_ofList]
  constructor
  · intro hplain
    rw [Text.trimStart_of_head (hplain.append hne _), Text.afterLead?_eq_some_iff.mpr rfl,
      Option.map_some, Text.trim_blank_cons h (c := ' ') rfl, String.ofList_toList]
  · intro hblank
    rw [Option.map_eq_none_iff, Option.eq_none_iff_forall_ne_some]
    intro rest hrest
    have htext := Text.afterLead?_eq_some_iff.mp hrest
    have hopens := Text.opensPlainly_trimStart (marker ++ ' ' :: comment.toList)
    rw [htext] at hopens
    exact hblank (Text.opensPlainly_of_append hne hopens)

theorem isBlankLine_marked (marker : String) (h : IsPlainWord comment.toList) :
    isBlankLine (marker ++ " " ++ comment) = false := by
  rw [isBlankLine, List.isEmpty_eq_false_iff]
  intro hnil
  obtain ⟨c, word, hword⟩ := List.exists_cons_of_ne_nil h.1
  have hc : c ∈ (marker ++ " " ++ comment).toList := by
    rw [String.toList_append, hword]
    exact List.mem_append_right _ List.mem_cons_self
  have hblank := List.dropWhile_eq_nil_iff.mp hnil c hc
  rw [(h.2 c (by rw [hword]; exact List.mem_cons_self)).1] at hblank
  cases hblank

/-- The comments above a statement end with the one on the line above it exactly if the marker does
not start with a blank; otherwise there are none. -/
theorem commentsAbove_marked {n : Nat} (hne : a.commentMarker.toList ≠ [])
    (h : IsPlainWord comment.toList)
    (hline : a.lines[n]? = some (a.commentMarker ++ " " ++ comment)) :
    (OpensPlainly a.commentMarker.toList →
      ∃ before, a.commentsAbove (n + 2) = before ++ [comment]) ∧
    (¬ OpensPlainly a.commentMarker.toList → a.commentsAbove (n + 2) = []) := by
  have htext : (a.commentMarker ++ " " ++ comment).toList =
      a.commentMarker.toList ++ ' ' :: comment.toList := by simp
  have hcomment := commentOf?_marked hne h
  rw [String.ofList_toList, ← htext] at hcomment
  have hrows : (a.lines.take (n + 2 - 1)).reverse =
      (a.commentMarker ++ " " ++ comment) :: (a.lines.take n).reverse := by
    rw [Nat.add_sub_assoc (by decide), List.take_add_one, hline, Option.toList_some,
      List.reverse_concat]
  rw [commentsAbove, commentsAtEnd, hrows]
  constructor
  · intro hplain
    have hlast : lineComment? a.commentMarker (a.commentMarker ++ " " ++ comment) =
        some comment := by
      rw [lineComment?, isBlankLine_marked _ h, if_neg Bool.false_ne_true, hcomment.1 hplain]
    rw [List.takeWhile_cons_of_pos, List.filterMap_cons_some hlast, List.reverse_cons]
    · exact ⟨_, rfl⟩
    · rw [continues, hcomment.1 hplain, Option.isSome_some, Bool.or_true]
  · intro hblank
    rw [List.takeWhile_cons_of_neg, List.filterMap_nil, List.reverse_nil]
    rw [continues, hcomment.2 hblank, isBlankLine_marked _ h]
    decide

/-- A marked line above a statement is the last of its comments above
exactly if the marker does not start with a blank. -/
theorem commentsFor_marked {l : Location} {n : Nat} (hn : l.line = n + 2)
    (hne : a.commentMarker.toList ≠ []) (h : IsPlainWord comment.toList)
    (hline : a.lines[n]? = some (a.commentMarker ++ " " ++ comment)) :
    (∃ before, a.commentsFor l = before ++ comment :: (a.commentBehind? l.stop).toList) ↔
      OpensPlainly a.commentMarker.toList := by
  obtain ⟨hplain, hblank⟩ := commentsAbove_marked hne h hline
  rw [commentsFor, hn]
  constructor
  · -- without a comment above, the comments are too few to hold one more than that behind
    rintro ⟨before, heq⟩
    by_contra hopens
    rw [hblank hopens, List.nil_append] at heq
    have hlength := congrArg List.length heq
    simp only [List.length_append, List.length_cons] at hlength
    omega
  · intro hopens
    obtain ⟨before, hbefore⟩ := hplain hopens
    exact ⟨before, by rw [hbefore, List.append_assoc, List.singleton_append]⟩

end Annotator

namespace Config

variable {c : Config}

/-- Accepted settings give an extractor. Lines that are laid out as directives of the names that are
set are read as such exactly for names of letters, with a marker before descriptions that neither
starts with a blank nor breaks a line; a marked line above a statement is the last of its comments
above exactly if the comment marker does not start with a blank. -/
theorem validated_settings_read (c : Config) (h : c.validate = .ok ()) :
    DirectiveExtractor.new c.analysis.directiveMarker c.analysis.descriptionMarker =
      .ok c.analysis.extractor ∧
    (∀ name ∈ c.analysis.directiveNames, ∀ subject text : String, IsPlainWord subject.toList →
      IsPlainWord text.toList → ∀ number file,
        (c.analysis.extractor.parseLine?
          (c.analysis.extractor.layout name subject text) number file =
            some ⟨name, [subject], some text, number, file⟩ ↔
          (∀ l ∈ name.toList, l.isAlpha = true) ∧ OpensPlainly c.analysis.descriptionMarker.toList ∧
            '\n' ∉ c.analysis.descriptionMarker.toList)) ∧
    ∀ fs root text p, Program.Built c.analysis fs root text p → ∀ s ∈ p.allStatements,
      ∃ f ∈ p.sources, f.path = s.sourceFile ∧ ∀ comment : String, IsPlainWord comment.toList →
        f.line? (s.location.line - 1) = some (c.analysis.commentMarker ++ " " ++ comment) →
          ((∃ before, s.comments = before ++ comment :: ((Program.annotatorOf c.analysis.extractor
              c.analysis f).commentBehind? s.location.stop).toList) ↔
            OpensPlainly c.analysis.commentMarker.toList) := by
  obtain ⟨htexts, hmarker⟩ := AnalysisConfig.fault?_eq_none (validate_eq_ok_iff.mp h)
  have hdescription : c.analysis.descriptionMarker.toList ≠ [] :=
    Text.ne_nil_of_trim (htexts ("analysis.description_marker", _) (by simp [AnalysisConfig.texts]))
  have hcomment : c.analysis.commentMarker.toList ≠ [] :=
    Text.ne_nil_of_trim (htexts ("analysis.comment_marker", _) (by simp [AnalysisConfig.texts]))
  refine ⟨extractor_of_validate h, fun name hname subject text hsubject htext number file => ?_, ?_⟩
  · have hne : name.toList ≠ [] := by
      obtain ⟨x, hx, rfl⟩ := List.mem_map.mp (c.analysis.directiveNames_subset hname)
      exact Text.ne_nil_of_trim (htexts x hx)
    exact c.analysis.extractor.parseLine?_layout hmarker hdescription hne hsubject htext number file
  · intro fs root text p hbuilt s hs
    obtain ⟨extractor, f, hf, hextractor, hpath, -, hcomments⟩ := hbuilt.annotated hs
    rw [extractor_of_validate h, Except.ok.injEq] at hextractor
    subst hextractor
    refine ⟨f, hf, hpath, fun comment hword hline => ?_⟩
    -- a statement on the first line has no line above it
    obtain ⟨n, hn⟩ : ∃ n, s.location.line = n + 2 := by
      refine ⟨s.location.line - 2, ?_⟩
      rw [SourceFile.line?] at hline
      split at hline
      · cases hline
      · omega
    have hrow : (Program.annotatorOf c.analysis.extractor c.analysis f).lines[n]? =
        some (c.analysis.commentMarker ++ " " ++ comment) := by
      rw [hn] at hline
      exact hline
    rw [hcomments]
    exact Annotator.commentsFor_marked hn hcomment hword hrow

/-- With the usual settings a section is read, and a comment above a statement found. -/
theorem validated_settings_read_of_usual :
    ({} : Config).validate = .ok () ∧
      ({} : AnalysisConfig).extractor.parseLine? "@section(Rules) -> derived" 3 ⟨"p.lp"⟩ =
        some ⟨"section", ["Rules"], some "derived", 3, ⟨"p.lp"⟩⟩ ∧
      ∃ p s before behind, Program.Built {} (.ofFiles []) ⟨"p.lp"⟩ "%- about\na.\n" p ∧
        s ∈ p.allStatements ∧ s.comments = before ++ "about" :: behind := by
  have hvalid : ({} : Config).validate = .ok () := rfl
  obtain ⟨-, hread, hcomments⟩ := validated_settings_read {} hvalid
  have hword (text : String) (hne : text.toList ≠ []) (h : text.toList.all Char.isAlphanum = true) :
      IsPlainWord text.toList := Text.isPlainWord_of_isAlphanum hne (List.all_eq_true.mp h)
  have hletters : "section".toList.all Char.isAlpha = true := by decide
  have hsection := (hread "section" (by decide) "Rules" "derived" (hword _ (by simp) (by decide))
    (hword _ (by simp) (by decide)) 3 ⟨"p.lp"⟩).mpr
      ⟨List.all_eq_true.mp hletters, by decide, by decide⟩
  refine ⟨hvalid, hsection, ?_⟩
  obtain ⟨p, hbuilt, hsources, hlines⟩ := Program.exists_built_of_lines {} (.ofFiles []) ⟨"p.lp"⟩
    "%- about\na.\n" [2] (by decide +kernel)
  have hmem : 2 ∈ p.allStatements.map (·.location.line) := by
    rw [hlines]
    decide
  obtain ⟨s, hs, hline⟩ := List.mem_map.mp hmem
  obtain ⟨f, hf, -, hmarked⟩ := hcomments _ _ _ _ hbuilt s hs
  rw [hsources, List.mem_singleton] at hf
  obtain ⟨before, hbefore⟩ := (hmarked "about" (hword _ (by simp) (by decide))
    (by rw [hline, hf]; decide)).mpr (by decide)
  exact ⟨p, s, before, _, hbuilt, hs, hbefore⟩

/-- Settings are accepted with a section directive that no line is read as. -/
theorem validated_section_never_read :
    ({ analysis := { sectionDirective := "sec1" } } : Config).validate = .ok () ∧
      DirectiveExtractor.default.parseLine?
        (DirectiveExtractor.default.layout "sec1" "s" "t") 0 ⟨"a.lp"⟩ = none :=
  ⟨rfl, rfl⟩

end Config
end AspAtlas
