import AspAtlas.Proofs.Directive.Reading
import Mathlib.Data.List.Forall2
/-!
Directives as they may be written on a line: behind any text without the marker, with each parameter
in quotes or as it is. Such a line is read as the directive it was written for, except that no
description is found behind a marker that would break the line.
-/
namespace AspAtlas.DirectiveExtractor

open Text (isBlank trim trimStart OpensPlainly)

/-- How a parameter without quotes may be written: in quotes, or as it is when its parentheses pair
off and its commas stand in them. -/
inductive WrittenAs : String → String → Prop
  | quoted {parameter : String} (h : '"' ∉ parameter.toList) :
      WrittenAs parameter ("\"" ++ parameter ++ "\"")
  | plain {parameter : String} (h : IsBalanced parameter.toList) : WrittenAs parameter parameter

/-- What follows the parameters of a directive. -/
def ending (e : DirectiveExtractor) : Option String → String
  | none => ""
  | some description => " " ++ e.descriptionMarker ++ " " ++ description

/-- A directive on a line, behind some text. -/
def written (e : DirectiveExtractor) (before name : String) (texts : List String)
    (description : Option String) : String :=
  before ++ String.singleton e.marker ++ name ++ "(" ++ ", ".intercalate texts ++ ")" ++
    e.ending description

/-- A text that stands on one line and has no blanks at its ends. -/
structure IsTrimmed (text : String) : Prop where
  trim_eq : trim text.toList = text.toList
  feedless : '\n' ∉ text.toList

instance (text : String) : Decidable (IsTrimmed text) :=
  decidable_of_iff (trim text.toList = text.toList ∧ '\n' ∉ text.toList)
    ⟨fun h => ⟨h.1, h.2⟩, fun h => ⟨h.trim_eq, h.feedless⟩⟩

variable {e : DirectiveExtractor} {marker : Char}
    {before name descriptionMarker text parameter : String}
  {parameters texts : List String} {description : Option String} {cs rest : List Char}

namespace WrittenAs

theorem isRaw (h : WrittenAs parameter text) : IsRaw text.toList := by
  cases h with
  | quoted h => simpa using isRaw_quoted h
  | plain h => exact h.raw

theorem unquoted_eq (h : WrittenAs parameter text) : unquoted text.toList = parameter.toList := by
  cases h with
  | quoted h =>
    have hinner : parameter.toList.filter (· ≠ '"') = parameter.toList := unquoted_of_not_mem h
    have htext : ("\"" ++ parameter ++ "\"").toList = '"' :: (parameter.toList ++ ['"']) := by simp
    rw [htext, unquoted, List.filter_cons_of_neg (by decide), List.filter_append, hinner]
    exact List.append_nil _
  | plain h => exact unquoted_of_not_mem h.plain

theorem feedless (h : WrittenAs parameter text) (hparameter : '\n' ∉ parameter.toList) :
    '\n' ∉ text.toList := by
  cases h with
  | quoted h => simpa using hparameter
  | plain h => exact hparameter

end WrittenAs

theorem toList_joined (text : String) (texts : List String) :
    (", ".intercalate (text :: texts)).toList =
      text.toList ++ (texts.map fun text => ' ' :: text.toList).flatMap (',' :: ·) := by
  induction texts generalizing text with
  | nil => simp
  | cons next texts ih =>
    rw [String.intercalate_cons_cons, String.toList_append, String.toList_append, ih]
    simp

/-- Behind the blank that follows a separator, a written parameter is raw, stands on one line, and
is read as what was written. -/
theorem raws_of_written (h : List.Forall₂ WrittenAs parameters texts)
    (htrimmed : ∀ p ∈ parameters, IsTrimmed p) :
    (∀ raw ∈ texts.map fun text => ' ' :: text.toList, IsRaw raw ∧ '\n' ∉ raw) ∧
      (texts.map fun text => ' ' :: text.toList).map (fun raw => trim (unquoted raw)) =
        parameters.map String.toList := by
  induction h with
  | nil => exact ⟨nofun, rfl⟩
  | @cons parameter text parameters texts hp _ ih =>
    obtain ⟨htrim, htrims⟩ := List.forall_mem_cons.mp htrimmed
    obtain ⟨hraws, hread⟩ := ih htrims
    have hraw : IsRaw (' ' :: text.toList) := .other (by decide) hp.isRaw
    have hfeed : '\n' ∉ ' ' :: text.toList := by simpa using hp.feedless htrim.feedless
    refine ⟨List.forall_mem_cons.mpr ⟨⟨hraw, hfeed⟩, hraws⟩, ?_⟩
    rw [List.map_cons, List.map_cons, hread, unquoted_cons_of_ne (by decide),
      Text.trim_cons_of_isBlank rfl, hp.unquoted_eq, htrim.trim_eq, List.map_cons]

/-- Written parameters in parentheses are read as what was written. -/
theorem splitParameters_joined (hne : parameters ≠ [])
    (hwritten : List.Forall₂ WrittenAs parameters texts)
    (htrimmed : ∀ p ∈ parameters, IsTrimmed p) (rest : List Char) :
    splitParameters ((", ".intercalate texts).toList ++ ')' :: rest) =
      some (parameters.map String.toList, rest) := by
  cases hwritten with
  | nil => exact absurd rfl hne
  | @cons parameter text parameters texts hfirst hothers =>
    obtain ⟨htrim, htrims⟩ := List.forall_mem_cons.mp htrimmed
    obtain ⟨hraws, hread⟩ := raws_of_written hothers htrims
    rw [toList_joined, List.append_assoc,
      splitParameters_raws hfirst.isRaw fun raw hraw => (hraws raw hraw).1, List.map_cons,
      hfirst.unquoted_eq, htrim.trim_eq, hread, List.map_cons]

theorem joined_feedless (hwritten : List.Forall₂ WrittenAs parameters texts)
    (htrimmed : ∀ p ∈ parameters, IsTrimmed p) : '\n' ∉ (", ".intercalate texts).toList := by
  cases hwritten with
  | nil => exact List.not_mem_nil
  | @cons parameter text parameters texts hfirst hothers =>
    obtain ⟨htrim, htrims⟩ := List.forall_mem_cons.mp htrimmed
    obtain ⟨hraws, -⟩ := raws_of_written hothers htrims
    rw [toList_joined, List.mem_append, not_or]
    refine ⟨hfirst.feedless htrim.feedless, fun hmem => ?_⟩
    obtain ⟨raw, hraw, hmem⟩ := List.mem_flatMap.mp hmem
    rcases List.mem_cons.mp hmem with he | hmem
    · exact absurd he (by decide)
    · exact (hraws raw hraw).2 hmem

/-- The marker is found behind a text without it. -/
theorem findHead?_lead {lead : List Char} {found : List Char × List Char} (hlead : marker ∉ lead)
    (h : headOf? rest = some found) : findHead? marker (lead ++ marker :: rest) = some found := by
  induction lead with
  | nil => rw [List.nil_append, findHead?, if_pos rfl, h]
  | cons c lead ih =>
    rw [List.cons_append, findHead?, if_neg (List.ne_of_not_mem_cons hlead).symm]
    exact ih (List.not_mem_of_not_mem_cons hlead)

theorem descriptionOf?_ending (hne : e.descriptionMarker.toList ≠ [])
    (hplain : OpensPlainly e.descriptionMarker.toList)
    (hdescription : ∀ text ∈ description, text ≠ "" ∧ IsTrimmed text) :
    descriptionOf? e.descriptionMarker.toList (e.ending description).toList = description := by
  cases description with
  | none =>
    obtain ⟨c, marker, hmarker⟩ := List.exists_cons_of_ne_nil hne
    rw [hmarker]
    rfl
  | some text =>
    obtain ⟨hne', htrim⟩ := hdescription text rfl
    have htext : text.toList ≠ [] := by simpa using hne'
    have hending : (e.ending (some text)).toList =
        [' '] ++ (e.descriptionMarker.toList ++ ' ' :: text.toList) := by simp [ending]
    rw [descriptionOf?, hending, Text.trimStart_append _ (hplain.append hne _)]
    have hblank : trimStart [' '] = [] := rfl
    rw [hblank, List.nil_append, Text.afterLead?_eq_some_iff.mpr rfl]
    simp only [Text.trim_cons_of_isBlank (c := ' ') rfl, htrim.trim_eq,
      List.isEmpty_eq_false_iff.mpr htext, Bool.false_eq_true, if_false, String.ofList_toList]

/-- The end of a directive does not end in a blank. -/
theorem ending_plain (hdescription : ∀ text ∈ description, text ≠ "" ∧ IsTrimmed text) :
    OpensPlainly (')' :: (e.ending description).toList).reverse := by
  cases description with
  | none =>
    have hclose : OpensPlainly [')'] := by decide
    exact hclose
  | some text =>
    obtain ⟨hne, htrim⟩ := hdescription text rfl
    have htext : text.toList.reverse ≠ [] := by simpa using hne
    have hlast := (Text.trim_eq_self_iff.mp htrim.trim_eq).2
    have hreverse : (')' :: (e.ending (some text)).toList).reverse =
        text.toList.reverse ++ (')' :: ' ' :: (e.descriptionMarker.toList ++ [' '])).reverse := by
      simp [ending]
    rw [hreverse]
    exact hlast.append htext _

theorem ending_feedless (hdescription : ∀ text ∈ description, text ≠ "" ∧ IsTrimmed text)
    (hmarker : description.isSome = true → '\n' ∉ e.descriptionMarker.toList) :
    '\n' ∉ (e.ending description).toList := by
  cases description with
  | none => exact List.not_mem_nil
  | some text =>
    obtain ⟨-, htrim⟩ := hdescription text rfl
    simp [ending, hmarker rfl, htrim.feedless]

/-- Trimming a line on which a directive is written takes blanks from the text before it only. -/
theorem trim_written (hmarker : isBlank e.marker = false)
    (hdescription : ∀ text ∈ description, text ≠ "" ∧ IsTrimmed text) :
    trim (e.written before name texts description).toList =
      trimStart before.toList ++ e.marker :: (name.toList ++ '(' ::
        ((", ".intercalate texts).toList ++ ')' :: (e.ending description).toList)) := by
  have hline : (e.written before name texts description).toList =
      before.toList ++ e.marker :: (name.toList ++ '(' ::
        ((", ".intercalate texts).toList ++ ')' :: (e.ending description).toList)) := by
    simp [written]
  have hhead : OpensPlainly (e.marker :: (name.toList ++ '(' ::
      ((", ".intercalate texts).toList ++ ')' :: (e.ending description).toList))) := by
    intro c hc
    rw [List.head?_cons, Option.some.injEq] at hc
    rwa [← hc]
  have hlast : OpensPlainly (trimStart before.toList ++ e.marker :: (name.toList ++ '(' ::
      ((", ".intercalate texts).toList ++ ')' :: (e.ending description).toList))).reverse := by
    have hclose := (ending_plain (e := e) hdescription).append (by simp)
    simpa using hclose _
  rw [hline, trim, Text.trimStart_append _ hhead, Text.trimEnd_of_last hlast]

/-- A directive that is written without breaking its line is read as what was written. -/
theorem parseLine?_of_written (hne : e.descriptionMarker.toList ≠ [])
    (hmarker : isBlank e.marker = false)
    (hplain : OpensPlainly e.descriptionMarker.toList) (hbefore : e.marker ∉ before.toList)
    (hname : name.toList ≠ []) (hletters : ∀ c ∈ name.toList, c.isAlpha = true)
    (hwritten : List.Forall₂ WrittenAs parameters texts) (htrimmed : ∀ p ∈ parameters, IsTrimmed p)
    (hsubject : ∃ subject others, parameters = subject :: others ∧ subject ≠ "")
    (hdescription : ∀ text ∈ description, text ≠ "" ∧ IsTrimmed text)
    (hfeed : description.isSome = true → '\n' ∉ e.descriptionMarker.toList) (number : Nat)
    (file : Path) : e.parseLine? (e.written before name texts description) number file =
      some ⟨name, parameters, description, number, file⟩ := by
  obtain ⟨subject, others, rfl, hsubject⟩ := hsubject
  have hlead : e.marker ∉ trimStart before.toList :=
    fun hmem => hbefore ((Text.trimStart_suffix before.toList).subset hmem)
  have hrest : '\n' ∉ (", ".intercalate texts).toList ++ ')' :: (e.ending description).toList := by
    rw [List.mem_append, List.mem_cons, not_or, not_or]
    exact ⟨joined_feedless hwritten htrimmed, by decide, ending_feedless hdescription hfeed⟩
  have hhead := findHead?_lead hlead (headOf?_name hname hletters hrest)
  have hsplit := splitParameters_joined (List.cons_ne_nil _ _) hwritten htrimmed
    (e.ending description).toList
  have hend := descriptionOf?_ending hne hplain hdescription
  obtain ⟨c, word, hword⟩ :=
    List.exists_cons_of_ne_nil (show subject.toList ≠ [] by simpa using hsubject)
  have hback : String.ofList (c :: word) = subject := by rw [← hword, String.ofList_toList]
  have hothers : (others.map String.toList).map String.ofList = others := by simp
  rw [parseLine?, trim_written hmarker hdescription, hhead]
  simp only [Option.bind_eq_bind, Option.bind_some, hsplit, List.map_cons, hword, hend, hback,
    hothers, String.ofList_toList]

theorem new_eq_ok (h : DirectiveExtractor.new marker descriptionMarker = .ok e) :
    marker = e.marker ∧ descriptionMarker = e.descriptionMarker ∧
      descriptionMarker.toList ≠ [] := by
  rw [DirectiveExtractor.new] at h
  split at h
  · cases h
  · rename_i hblank
    cases h
    exact ⟨rfl, rfl, Text.ne_nil_of_trim (Bool.eq_false_iff.mpr hblank)⟩

/-- A line on which a directive is written is read as that directive if and only if it has no
description or the marker before the description does not break the line. -/
theorem parseLine?_written (hnew : DirectiveExtractor.new marker descriptionMarker = .ok e)
    (hmarker : isBlank marker = false) (hplain : OpensPlainly descriptionMarker.toList)
    (hbefore : marker ∉ before.toList) (hname : name ≠ "")
    (hletters : ∀ c ∈ name.toList, c.isAlpha = true)
    (hwritten : List.Forall₂ WrittenAs parameters texts) (htrimmed : ∀ p ∈ parameters, IsTrimmed p)
    (hsubject : ∃ subject others, parameters = subject :: others ∧ subject ≠ "")
    (hdescription : ∀ text ∈ description, text ≠ "" ∧ IsTrimmed text) (number : Nat) (file : Path) :
    e.parseLine? (e.written before name texts description) number file =
        some ⟨name, parameters, description, number, file⟩ ↔
      (description.isSome = true → '\n' ∉ descriptionMarker.toList) := by
  obtain ⟨rfl, rfl, hne⟩ := new_eq_ok hnew
  have hletter : name.toList ≠ [] := by simpa using hname
  constructor
  · intro h hsome
    exact ((parseLine?_spec hne h).2 hsome).2
  · intro hfeed
    exact parseLine?_of_written hne hmarker hplain hbefore hletter hletters hwritten
      htrimmed hsubject hdescription hfeed number file

/-- A letter may be the marker, and parameters in quotes may hold any
parentheses, commas and arrows. -/
theorem parseLine?_written_of_letter :
    (DirectiveExtractor.mk 'p' "->").parseLine?
        "%  ppredicate(\"f(X, ->\", g(A,B), \"\") -> p(a) -> \"b\")" 4 ⟨"p.lp"⟩ =
      some ⟨"predicate", ["f(X, ->", "g(A,B)", ""], some "p(a) -> \"b\")", 4, ⟨"p.lp"⟩⟩ := by
  have hletters : "predicate".toList.all Char.isAlpha = true := by decide
  exact (@parseLine?_written ⟨'p', "->"⟩ 'p' "%  " "predicate" "->"
    ["f(X, ->", "g(A,B)", ""] ["\"f(X, ->\"", "g(A,B)", "\"\""] (some "p(a) -> \"b\")")
    rfl rfl (by decide) (by decide) (by decide) (List.all_eq_true.mp hletters)
    (.cons (.quoted (by decide)) (.cons (.plain (by decide)) (.cons (.quoted (by decide)) .nil)))
    (by decide) ⟨_, _, rfl, by decide⟩ (by decide) 4 ⟨"p.lp"⟩).mpr (by decide)

/-- No description is found behind a marker over two lines. -/
theorem description_behind_broken_marker :
    DirectiveExtractor.new '@' "-\n>" = .ok ⟨'@', "-\n>"⟩ ∧ OpensPlainly "-\n>".toList ∧
      (DirectiveExtractor.mk '@' "-\n>").parseLine?
        ((DirectiveExtractor.mk '@' "-\n>").written "" "p" ["\"a\""] (some "text")) 0
          ⟨"test.lp"⟩ = none :=
  ⟨rfl, by decide, by decide⟩

end AspAtlas.DirectiveExtractor
