import AspAtlas.Path.Spelling
/-!
The components of parents and joined paths. Both depend on the components of a path only, however
it is spelled.
-/
namespace AspAtlas.Path

theorem beq_iff {p q : Path} : (p == q) = true ↔ p.components = q.components := by
  change (p.components == q.components) = true ↔ p.components = q.components
  exact beq_iff_eq

@[simp] theorem parts_nil : parts [] = [[]] := rfl

@[simp] theorem parts_slash (cs : List Char) : parts ('/' :: cs) = [] :: parts cs := by
  simp [parts]

theorem exists_parts (cs : List Char) : ∃ first rest, parts cs = first :: rest := by
  cases cs with
  | nil => exact ⟨[], [], rfl⟩
  | cons c cs =>
    simp only [parts, List.foldr_cons]
    split
    · exact ⟨_, _, rfl⟩
    · split <;> exact ⟨_, _, rfl⟩

theorem parts_ne_nil (cs : List Char) : parts cs ≠ [] := by
  obtain ⟨first, rest, h⟩ := exists_parts cs
  simp [h]

theorem parts_cons {c : Char} (hc : c ≠ '/') {cs first : List Char} {rest : List (List Char)}
    (h : parts cs = first :: rest) : parts (c :: cs) = (c :: first) :: rest := by
  simp only [parts, List.foldr_cons, hc, if_false] at h ⊢
  rw [h]

theorem parts_append_slash (cs ds : List Char) :
    parts (cs ++ '/' :: ds) = parts cs ++ parts ds := by
  induction cs with
  | nil => simp
  | cons c cs ih =>
    by_cases hc : c = '/'
    · subst hc
      simp [ih]
    · obtain ⟨first, rest, h⟩ := exists_parts cs
      have happ : parts (cs ++ '/' :: ds) = first :: (rest ++ parts ds) := by
        rw [ih, h, List.cons_append]
      rw [List.cons_append, parts_cons hc happ, parts_cons hc h, List.cons_append]

theorem parts_of_no_slash {cs : List Char} (h : '/' ∉ cs) : parts cs = [cs] := by
  induction cs with
  | nil => rfl
  | cons c cs ih =>
    simp only [List.mem_cons, not_or] at h
    exact parts_cons (Ne.symm h.1) (ih h.2)

/-- The components of a text behind a slash. -/
def inner (cs : List Char) : List Component := (parts cs).filterMap componentOf?

@[simp] theorem inner_nil : inner [] = [] := by decide

@[simp] theorem inner_dot : inner ['.'] = [] := by decide

@[simp] theorem componentsOf_nil : componentsOf [] = [] := by decide

theorem componentsOf_slash (cs : List Char) : componentsOf ('/' :: cs) = .root :: inner cs := by
  simp [componentsOf, inner, parts_ne_nil]

/-- A text that does not start with a slash has its first part in front. -/
theorem componentsOf_cons {c : Char} (hc : c ≠ '/') {cs first : List Char} {rest : List (List Char)}
    (h : parts cs = first :: rest) :
    componentsOf (c :: cs) =
      (if c :: first = ['.'] then [Component.current] else (componentOf? (c :: first)).toList) ++
        rest.filterMap componentOf? := by
  simp only [componentsOf, parts_cons hc h, reduceCtorEq, false_and, if_false]
  split <;> rfl

theorem componentsOf_append_slash {cs : List Char} (h : cs ≠ []) (ds : List Char) :
    componentsOf (cs ++ '/' :: ds) = componentsOf cs ++ inner ds := by
  cases cs with
  | nil => exact absurd rfl h
  | cons c cs =>
    by_cases hc : c = '/'
    · subst hc
      simp [componentsOf_slash, inner, parts_append_slash]
    · obtain ⟨first, rest, hp⟩ := exists_parts cs
      have happ : parts (cs ++ '/' :: ds) = first :: (rest ++ parts ds) := by
        rw [parts_append_slash, hp, List.cons_append]
      rw [List.cons_append, componentsOf_cons hc happ, componentsOf_cons hc hp,
        List.filterMap_append, List.append_assoc, inner]

theorem componentsOf_eq_nil_iff {cs : List Char} : componentsOf cs = [] ↔ cs = [] := by
  constructor
  · intro h
    cases cs with
    | nil => rfl
    | cons c cs =>
      by_cases hc : c = '/'
      · subst hc
        simp [componentsOf_slash] at h
      · obtain ⟨first, rest, hp⟩ := exists_parts cs
        rw [componentsOf_cons hc hp] at h
        by_cases hdot : c :: first = ['.']
        · simp [hdot] at h
        · by_cases hup : c :: first = ['.', '.'] <;> simp [hdot, hup, componentOf?] at h
  · rintro rfl
    rfl

/-- A text without slashes has one component at most. -/
theorem dropLast_componentsOf_of_no_slash {cs : List Char} (h : '/' ∉ cs) :
    (componentsOf cs).dropLast = [] := by
  cases cs with
  | nil => rfl
  | cons c cs =>
    simp only [List.mem_cons, not_or] at h
    rw [componentsOf_cons (Ne.symm h.1) (parts_of_no_slash h.2)]
    split
    · rfl
    · cases componentOf? (c :: cs) <;> rfl

theorem inner_of_no_slash {cs : List Char} (h : '/' ∉ cs) (hne : cs ≠ []) (hdot : cs ≠ ['.']) :
    ∃ c, inner cs = [c] := by
  rw [inner, parts_of_no_slash h]
  by_cases hup : cs = ['.', '.']
  · exact ⟨.parent, by simp [hup, componentOf?]⟩
  · exact ⟨.name (String.ofList cs), by simp [hne, hdot, hup, componentOf?]⟩

/-- A part counts the same at the start of a text and behind a slash, unless it is `.`. -/
theorem componentsOf_eq_inner {part : List Char} (h : '/' ∉ part) (hdot : part ≠ ['.']) :
    componentsOf part = inner part := by
  cases part with
  | nil => rfl
  | cons c part =>
    have hparts := parts_of_no_slash h
    simp only [List.mem_cons, not_or] at h
    rw [componentsOf_cons (Ne.symm h.1) (parts_of_no_slash h.2), if_neg hdot, inner, hparts,
      List.filterMap_cons]
    cases componentOf? (c :: part) <;> rfl

/-- Cutting off slashes and `.` parts keeps the components, unless nothing remains. -/
theorem componentsOf_dropTail {rev : List Char} (h : dropTail rev ≠ []) :
    componentsOf (dropTail rev).reverse = componentsOf rev.reverse := by
  fun_induction dropTail rev with
  | case1 rest ih =>
    have hrest : rest ≠ [] := by
      rintro rfl
      simp [dropTail] at h
    rw [ih h, List.reverse_cons, componentsOf_append_slash (by simpa using hrest)]
    simp
  | case2 rest ih =>
    have hrest : rest ≠ [] := by
      rintro rfl
      simp [dropTail] at h
    have happ : ('.' :: '/' :: rest).reverse = rest.reverse ++ '/' :: ['.'] := by simp
    have happ' : ('/' :: rest).reverse = rest.reverse ++ '/' :: [] := by simp
    rw [ih h, happ, happ', componentsOf_append_slash (by simpa using hrest),
      componentsOf_append_slash (by simpa using hrest)]
    simp
  | case3 => rfl

/-- Only the root vanishes when slashes and `.` parts are cut off. -/
theorem root_of_dropTail_eq_nil {rev : List Char} (h : dropTail rev = []) (hne : rev ≠ []) :
    rev.reverse.head? = some '/' ∧ componentsOf rev.reverse = [.root] := by
  fun_induction dropTail rev with
  | case1 rest ih =>
    by_cases hrest : rest = []
    · subst hrest
      simp [componentsOf_slash]
    · obtain ⟨hhead, hcomp⟩ := ih h hrest
      rw [List.reverse_cons, componentsOf_append_slash (by simpa using hrest), hcomp]
      simp [List.head?_append, hhead]
  | case2 rest ih =>
    obtain ⟨hhead, hcomp⟩ := ih h (by simp)
    have happ : ('.' :: '/' :: rest).reverse = rest.reverse ++ '/' :: ['.'] := by simp
    by_cases hrest : rest = []
    · subst hrest
      simp [componentsOf_slash]
    · rw [List.reverse_cons, componentsOf_append_slash (by simpa using hrest)] at hcomp
      rw [happ, componentsOf_append_slash (by simpa using hrest)]
      refine ⟨?_, by simpa using hcomp⟩
      simpa [List.head?_append, hrest] using hhead
  | case3 => exact absurd h hne

theorem dropTail_shape (rev : List Char) :
    (dropTail rev).head? ≠ some '/' ∧ ∀ rest, dropTail rev ≠ '.' :: '/' :: rest := by
  fun_induction dropTail rev with
  | case1 rest ih => exact ih
  | case2 rest ih => exact ih
  | case3 cs h₁ h₂ =>
    refine ⟨fun h => ?_, fun rest h => h₂ rest h⟩
    cases cs with
    | nil => simp at h
    | cons c cs =>
      simp only [List.head?_cons, Option.some.injEq] at h
      exact h₁ cs (by rw [h])

theorem dropTail_suffix (rev : List Char) : dropTail rev <:+ rev := by
  fun_induction dropTail rev with
  | case1 rest ih => exact ih.trans (List.suffix_cons _ _)
  | case2 rest ih => exact ih.trans (List.suffix_cons _ _)
  | case3 => exact List.suffix_rfl

theorem parent?_eq_none_iff {p : Path} :
    p.parent? = none ↔ p.components = [] ∨ p.components = [.root] := by
  simp only [parent?]
  split
  · simp_all
  · simp_all
  · rename_i h₁ h₂
    constructor
    · intro h
      split at h <;> simp at h
    · rintro (h | h)
      · exact absurd h h₁
      · exact absurd h h₂

theorem dropWhile_ne_slash (rev : List Char) :
    '/' ∉ rev ∧ rev.dropWhile (· != '/') = [] ∨
      ∃ last above, '/' ∉ last ∧ rev = last ++ '/' :: above ∧
        rev.dropWhile (· != '/') = '/' :: above := by
  induction rev with
  | nil => simp
  | cons c rev ih =>
    by_cases hc : c = '/'
    · subst hc
      exact .inr ⟨[], rev, by simp, rfl, by simp⟩
    · rcases ih with ⟨hm, hd⟩ | ⟨last, above, hm, he, hd⟩
      · exact .inl ⟨by simp [hm, Ne.symm hc], by simpa [hc] using hd⟩
      · exact .inr ⟨c :: last, above, by simp [hm, Ne.symm hc], by simp [he],
          by simpa [hc] using hd⟩

/-- A text whose end was cut off has no slash, or a component behind its last one. -/
theorem dropTail_cases (rev : List Char) :
    '/' ∉ dropTail rev ∧ (dropTail rev).dropWhile (· != '/') = [] ∨
      ∃ last above, '/' ∉ last ∧ last ≠ [] ∧ last ≠ ['.'] ∧ dropTail rev = last ++ '/' :: above ∧
        (dropTail rev).dropWhile (· != '/') = '/' :: above := by
  obtain ⟨hslash, hdot⟩ := dropTail_shape rev
  rcases dropWhile_ne_slash (dropTail rev) with h | ⟨last, above, hm, he, hd⟩
  · exact .inl h
  · refine .inr ⟨last, above, hm, ?_, ?_, he, hd⟩
    · rintro rfl
      exact hslash (by rw [he]; rfl)
    · rintro rfl
      exact hdot above he

/-- A path that is more than the root keeps its components when its end is cut off. -/
theorem components_dropTail {p : Path} (hnil : p.components ≠ []) (hroot : p.components ≠ [.root]) :
    dropTail p.text.toList.reverse ≠ [] ∧
      p.components = componentsOf (dropTail p.text.toList.reverse).reverse := by
  have hrev : p.text.toList.reverse ≠ [] := by
    intro he
    exact hnil (componentsOf_eq_nil_iff.mpr (by simpa using he))
  have htail : dropTail p.text.toList.reverse ≠ [] := by
    intro he
    exact hroot (by simpa [components] using (root_of_dropTail_eq_nil he hrev).2)
  have hcomp := componentsOf_dropTail htail
  rw [List.reverse_reverse] at hcomp
  exact ⟨htail, hcomp.symm⟩

/-- A text that is not cut off has the components above its last slash, then one more. -/
theorem dropLast_componentsOf {last above : List Char} (h : '/' ∉ last) (hne : last ≠ [])
    (hdot : last ≠ ['.']) :
    (componentsOf (above ++ '/' :: last)).dropLast =
      if above = [] then [.root] else componentsOf above := by
  obtain ⟨c, hc⟩ := inner_of_no_slash h hne hdot
  by_cases ha : above = []
  · simp [ha, componentsOf_slash, hc]
  · simp [ha, componentsOf_append_slash, hc]

theorem head?_ne_slash {cs ds : List Char} (h : '/' ∉ cs) (hne : cs ≠ []) :
    (cs ++ ds).head? ≠ some '/' := by
  cases cs with
  | nil => exact absurd rfl hne
  | cons c cs =>
    intro he
    simp only [List.cons_append, List.head?_cons, Option.some.injEq] at he
    exact h (by simp [he])

/-- A text of which nothing is left starts at the root. -/
theorem head?_of_dropTail_eq_nil {above last ds : List Char} (h : dropTail above = []) :
    (above.reverse ++ '/' :: last ++ ds).head? = some '/' := by
  by_cases ha : above = []
  · simp [ha]
  · simp [List.head?_append, (root_of_dropTail_eq_nil h ha).1]

/-- Above the last part, cutting off the end keeps the components; where nothing
is left there was the root. -/
theorem componentsOf_above (above : List Char) :
    (if dropTail above = [] then [Component.root] else componentsOf (dropTail above).reverse) =
      if above.reverse = [] then [.root] else componentsOf above.reverse := by
  by_cases hbefore : dropTail above = []
  · rw [if_pos hbefore]
    by_cases ha : above = []
    · rw [if_pos (by simpa using ha)]
    · rw [if_neg (by simpa using ha), (root_of_dropTail_eq_nil hbefore ha).2]
  · have ha : above ≠ [] := by
      rintro rfl
      exact hbefore (by simp [dropTail])
    rw [if_neg hbefore, if_neg (by simpa using ha), componentsOf_dropTail hbefore]

/-- The parent has all components but the last. -/
theorem components_of_parent? {p q : Path} (h : p.parent? = some q) :
    q.components = p.components.dropLast := by
  have hsome : p.parent? ≠ none := by simp [h]
  rw [Ne, parent?_eq_none_iff, not_or] at hsome
  obtain ⟨hnil, hroot⟩ := hsome
  obtain ⟨htail, hp⟩ := components_dropTail hnil hroot
  obtain ⟨cut, hcut⟩ := dropTail_suffix p.text.toList.reverse
  have htext : p.text.toList = (dropTail p.text.toList.reverse).reverse ++ cut.reverse := by
    rw [← List.reverse_append, hcut, List.reverse_reverse]
  have hcases := dropTail_cases p.text.toList.reverse
  simp only [parent?, isAbsolute] at h
  generalize dropTail p.text.toList.reverse = rev at *
  rcases hcases with ⟨hm, hd⟩ | ⟨last, above, hm, hne, hdot, rfl, hd⟩
  · have hfirst : p.text.toList.head? ≠ some '/' := by
      rw [htext]
      exact head?_ne_slash (by simpa using hm) (by simpa using htail)
    simp only [hd, dropTail, List.isEmpty_nil, Bool.true_and, beq_iff_eq, hfirst, if_false,
      Option.some.injEq] at h
    rw [hp, dropLast_componentsOf_of_no_slash (by simpa using hm), ← h]
    rfl
  · have happ : (last ++ '/' :: above).reverse = above.reverse ++ '/' :: last.reverse := by simp
    have hdrop : dropTail ('/' :: above) = dropTail above := by simp [dropTail]
    rw [hp, happ,
      dropLast_componentsOf (by simpa using hm) (by simpa using hne) (by simpa using hdot),
      ← componentsOf_above]
    rw [hd, hdrop] at h
    by_cases hbefore : dropTail above = []
    · have hfirst : p.text.toList.head? = some '/' := by
        rw [htext, happ]
        exact head?_of_dropTail_eq_nil hbefore
      simp only [hbefore, List.isEmpty_nil, hfirst, BEq.rfl, Bool.and_self, if_true,
        Option.some.injEq] at h
      rw [if_pos hbefore, ← h]
      decide
    · have hempty : (dropTail above).isEmpty = false := by simpa using hbefore
      simp only [hempty, Bool.false_and, Bool.false_eq_true, if_false, Option.some.injEq] at h
      rw [if_neg hbefore, ← h, components, String.toList_ofList]

theorem componentsOf_slash_end (lead cs : List Char) :
    componentsOf (lead ++ '/' :: cs) = componentsOf (lead ++ ['/']) ++ inner cs := by
  by_cases h : lead = []
  · simp [h, componentsOf_slash]
  · simp [componentsOf_append_slash h]

/-- What a text adds to the components of a path it is joined to. -/
theorem components_join (p : Path) (tail : String) :
    (p.join tail).components =
      if tail.toList.head? = some '/' ∨ p.components = [] then componentsOf tail.toList
      else p.components ++ inner tail.toList := by
  by_cases habs : tail.toList.head? = some '/'
  · simp [join, habs, components]
  simp only [habs, false_or]
  by_cases hnil : p.components = []
  · have hempty : p.text = "" := String.toList_eq_nil_iff.mp (componentsOf_eq_nil_iff.mp hnil)
    simp [join, habs, hempty, components]
  have hne : p.text.toList ≠ [] := fun h => hnil (componentsOf_eq_nil_iff.mpr h)
  have hempty : p.text.isEmpty = false := by
    simpa [String.isEmpty_iff, String.toList_eq_nil_iff] using hne
  by_cases hslash : p.text.toList.getLast? = some '/'
  · obtain ⟨lead, hlead⟩ := List.getLast?_eq_some_iff.mp hslash
    simp only [join, habs, hempty, hslash, Bool.false_or, decide_true, if_true, hnil, if_false]
    rw [components, components, String.toList_append, hlead, List.append_assoc]
    exact componentsOf_slash_end lead tail.toList
  · simp only [join, habs, hempty, hslash, Bool.false_or, decide_false, Bool.false_eq_true, hnil,
      if_false]
    rw [components, components, String.toList_append, String.toList_append, List.append_assoc]
    exact componentsOf_append_slash hne tail.toList

end AspAtlas.Path
