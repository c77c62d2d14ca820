import AspAtlas.Proofs.Directive.Parameters
/-!
Which lines are read as directives. A line that is laid out as a directive is read as that directive
exactly if its name consists of letters and the marker of its description can be seen from the left.
-/
namespace AspAtlas.DirectiveExtractor

open Text (isBlank trim trimStart OpensPlainly IsPlainWord)

variable {e : DirectiveExtractor} {cs name rest : List Char} {d : Directive} {line : String}
  {number : Nat} {file : Path}

theorem headOf?_spec (h : headOf? cs = some (name, rest)) :
    name ≠ [] ∧ (∀ c ∈ name, c.isAlpha = true) ∧ '\n' ∉ rest := by
  simp only [headOf?] at h
  split at h
  · cases h
  · rename_i hname
    split at h
    · split at h
      · cases h
      · rename_i hfeed
        cases h
        refine ⟨fun hnil => hname (List.isEmpty_iff.mpr hnil),
          fun c hc => List.mem_takeWhile_imp hc, ?_⟩
        rwa [List.contains_iff_mem] at hfeed
    · cases h

/-- A name of letters in front of a parenthesis is found. -/
theorem headOf?_name (hne : name ≠ []) (hletters : ∀ c ∈ name, c.isAlpha = true)
    (hrest : '\n' ∉ rest) : headOf? (name ++ '(' :: rest) = some (name, rest) := by
  have hstart : OpensPlainly (name ++ '(' :: rest) := by
    refine OpensPlainly.append (fun c hc => ?_) hne _
    exact Text.isBlank_of_isAlpha (hletters c (List.mem_of_head? hc))
  have htake : (name ++ '(' :: rest).takeWhile Char.isAlpha = name := by
    rw [List.takeWhile_append_of_pos hletters, List.takeWhile_cons_of_neg (by decide),
      List.append_nil]
  have hopen : trimStart ('(' :: rest) = '(' :: rest := rfl
  have hfeed : rest.contains '\n' = false := by
    rw [Bool.eq_false_iff]
    exact fun hmem => hrest (List.contains_iff_mem.mp hmem)
  rw [headOf?, Text.trimStart_of_head hstart, htake, List.isEmpty_eq_false_iff.mpr hne,
    List.drop_left, hopen]
  simp only [hfeed, Bool.false_eq_true, if_false]

theorem findHead?_spec {marker : Char} (h : findHead? marker cs = some (name, rest)) :
    name ≠ [] ∧ (∀ c ∈ name, c.isAlpha = true) ∧ '\n' ∉ rest := by
  induction cs with
  | nil => cases h
  | cons c cs ih =>
    rw [findHead?] at h
    split at h
    · split at h
      · rename_i found hfound
        cases h
        exact headOf?_spec hfound
      · exact ih h
    · exact ih h

/-- A description is only found behind a marker that does not start with a blank and stands in the
text. -/
theorem descriptionOf?_spec {marker tail : List Char} {text : String} (hne : marker ≠ [])
    (h : descriptionOf? marker tail = some text) :
    OpensPlainly marker ∧ ∀ c ∈ marker, c ∈ tail := by
  rw [descriptionOf?] at h
  split at h
  · rename_i found hfound
    have htail := Text.afterLead?_eq_some_iff.mp hfound
    constructor
    · have hopens := Text.opensPlainly_trimStart tail
      rw [htail] at hopens
      exact Text.opensPlainly_of_append hne hopens
    · intro c hc
      refine (Text.trimStart_suffix tail).subset ?_
      rw [htail]
      exact List.mem_append_left _ hc
  · cases h

/-- What every directive that was read is like: its name consists of letters, and a description was
found behind a marker that stands in the line as it is. -/
theorem parseLine?_spec (hmarker : e.descriptionMarker.toList ≠ [])
    (h : e.parseLine? line number file = some d) :
    (∀ c ∈ d.name.toList, c.isAlpha = true) ∧ (d.description.isSome = true →
      OpensPlainly e.descriptionMarker.toList ∧ '\n' ∉ e.descriptionMarker.toList) := by
  simp only [parseLine?, Option.bind_eq_bind, Option.bind_eq_some_iff] at h
  obtain ⟨⟨name, rest⟩, hhead, ⟨parameters, tail⟩, hsplit, h⟩ := h
  obtain ⟨-, hletters, hfeed⟩ := findHead?_spec hhead
  have hd : d.name = String.ofList name ∧
      d.description = descriptionOf? e.descriptionMarker.toList tail := by
    split at h
    · cases h
    · cases h
    · cases h
      exact ⟨rfl, rfl⟩
  rw [hd.1, hd.2, String.toList_ofList]
  refine ⟨hletters, fun hsome => ?_⟩
  obtain ⟨text, htext⟩ := Option.isSome_iff_exists.mp hsome
  obtain ⟨hplain, hmem⟩ := descriptionOf?_spec hmarker htext
  refine ⟨hplain, fun hin => hfeed ?_⟩
  exact (splitFrom_suffix hsplit).subset (hmem _ hin)

/-- A line that is laid out as a directive on a subject with a description. -/
def layout (e : DirectiveExtractor) (name subject text : String) : String :=
  String.singleton e.marker ++ name ++ "(" ++ subject ++ ") " ++ e.descriptionMarker ++ " " ++ text

theorem toList_layout (e : DirectiveExtractor) (name subject text : String) :
    (e.layout name subject text).toList = e.marker :: (name.toList ++ '(' :: (subject.toList ++
      ')' :: ' ' :: (e.descriptionMarker.toList ++ ' ' :: text.toList))) := by
  simp [layout]

/-- A line that is laid out as a directive on a plain subject with a plain description is read as
that directive if and only if the name consists of letters and the marker before the description
neither starts with a blank nor breaks the line. -/
theorem parseLine?_layout {name subject text : String} (hmarker : isBlank e.marker = false)
    (hne : e.descriptionMarker.toList ≠ []) (hname : name.toList ≠ [])
    (hsubject : IsPlainWord subject.toList) (htext : IsPlainWord text.toList) (number : Nat)
    (file : Path) :
    e.parseLine? (e.layout name subject text) number file =
        some ⟨name, [subject], some text, number, file⟩ ↔
      (∀ c ∈ name.toList, c.isAlpha = true) ∧ OpensPlainly e.descriptionMarker.toList ∧
        '\n' ∉ e.descriptionMarker.toList := by
  constructor
  · intro h
    obtain ⟨hletters, hdescription⟩ := parseLine?_spec hne h
    exact ⟨hletters, hdescription rfl⟩
  · rintro ⟨hletters, hplain, hfeed⟩
    have htrim : trim (e.layout name subject text).toList =
        (e.layout name subject text).toList := by
      rw [toList_layout]
      refine Text.trim_of_ends (fun c hc => ?_) ?_
      · rw [List.head?_cons, Option.some.injEq] at hc
        rwa [← hc]
      · have hlast := htext.opensPlainly_reverse.append (by simpa using htext.1)
        simpa using hlast _
    have hrest : '\n' ∉ subject.toList ++ ')' :: ' ' ::
        (e.descriptionMarker.toList ++ ' ' :: text.toList) := by
      have hs := hsubject.not_mem_of_isBlank (c := '\n') rfl
      have ht := htext.not_mem_of_isBlank (c := '\n') rfl
      simp [hs, ht, hfeed]
    have hfind : findHead? e.marker (trim (e.layout name subject text).toList) = some (name.toList,
        subject.toList ++ ')' :: ' ' :: (e.descriptionMarker.toList ++ ' ' :: text.toList)) := by
      rw [htrim, toList_layout, findHead?, if_pos rfl, headOf?_name hname hletters hrest]
    have hdescription : descriptionOf? e.descriptionMarker.toList
        (' ' :: (e.descriptionMarker.toList ++ ' ' :: text.toList)) = some text := by
      have hstart : trimStart (' ' :: (e.descriptionMarker.toList ++ ' ' :: text.toList)) =
          e.descriptionMarker.toList ++ ' ' :: text.toList :=
        Text.trimStart_of_head (hplain.append hne _)
      rw [descriptionOf?, hstart, Text.afterLead?_eq_some_iff.mpr rfl]
      simp only [Text.trim_blank_cons htext (c := ' ') rfl, List.isEmpty_eq_false_iff.mpr htext.1,
        Bool.false_eq_true, if_false, String.ofList_toList]
    have hsplit := splitParameters_word hsubject
      (' ' :: (e.descriptionMarker.toList ++ ' ' :: text.toList))
    obtain ⟨c, word, hword⟩ := List.exists_cons_of_ne_nil hsubject.1
    have hback : String.ofList (c :: word) = subject := by rw [← hword, String.ofList_toList]
    rw [parseLine?, hfind]
    simp only [Option.bind_eq_bind, Option.bind_some, hsplit]
    simp only [hword, hdescription, List.map_cons, List.map_nil, hback, String.ofList_toList]

end AspAtlas.DirectiveExtractor
