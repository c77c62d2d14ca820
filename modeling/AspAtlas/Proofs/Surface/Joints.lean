import AspAtlas.Proofs.Grammar.Units
import AspAtlas.Proofs.Surface.Context
import AspAtlas.Proofs.Text.Blank
/-!
Where a text is cut. Gaps and units follow each other without a rest; a place between two of them is
a joint. Blanks at a joint lead to a joint, and so does every joint behind the blanks of a line
whose start is one: nothing that reaches over the end of a line ends with a blank.
-/
namespace AspAtlas.Surface

open Text (isBlank)

variable {b c : Char} {cs used rest before blanks : List Char} {lexeme : Lexeme}

/-- The gap or unit that a text starts with, and the text after it. -/
def piece? : List Char → Option (List Char × List Char)
  | [] => none
  | c :: cs => some ((gap? (c :: cs)).getD (scan c cs).2)

theorem piece?_cases (h : piece? cs = some (used, rest)) :
    gap? cs = some (used, rest) ∨
      ∃ c ds lexeme, cs = c :: ds ∧ gap? cs = none ∧ scan c ds = (lexeme, used, rest) := by
  cases cs with
  | nil => cases h
  | cons c cs =>
    rw [piece?, Option.some.injEq] at h
    cases hgap : gap? (c :: cs) with
    | some found =>
      rw [hgap, Option.getD_some] at h
      exact .inl (by rw [h])
    | none =>
      rw [hgap, Option.getD_none] at h
      exact .inr ⟨c, cs, (scan c cs).1, rfl, rfl, by rw [← h]⟩

theorem piece?_gap (h : gap? cs = some (used, rest)) : piece? cs = some (used, rest) := by
  cases cs with
  | nil => cases h
  | cons c cs => rw [piece?, h, Option.getD_some]

theorem piece?_unit (hgap : gap? (c :: cs) = none) (h : scan c cs = (lexeme, used, rest)) :
    piece? (c :: cs) = some (used, rest) := by
  rw [piece?, hgap, h, Option.getD_none]

theorem piece?_split (h : piece? cs = some (used, rest)) : cs = used ++ rest ∧ used ≠ [] := by
  rcases piece?_cases h with hgap | ⟨c, ds, lexeme, rfl, -, hscan⟩
  · exact gap?_split hgap
  · exact ⟨scan_split hscan, (used_of_scan hscan).1⟩

/-- What holds at the end of a text, and in front of every piece when it holds
behind, holds at every text. -/
theorem piece_induction {motive : List Char → Prop} (nil : motive [])
    (piece : ∀ cs used rest, piece? cs = some (used, rest) → motive rest → motive cs)
    (cs : List Char) : motive cs :=
  lex_induction (motive := fun _ cs => motive cs) (fun _ => nil)
    (fun _ cs used rest hgap ih => piece cs used rest (piece?_gap hgap) ih)
    (fun _ c cs _ used rest hgap hscan ih => piece (c :: cs) used rest (piece?_unit hgap hscan) ih)
    Position.start cs

/-- What is left of a text in front of its pieces and at its end, as far as a bound reaches. -/
def jointsFrom : Nat → List Char → List (List Char)
  | 0, cs => [cs]
  | n + 1, cs =>
    match piece? cs with
    | none => [cs]
    | some (_, rest) => cs :: jointsFrom n rest

/-- What is left of a text in front of each of its pieces, and at its end. -/
def joints (cs : List Char) : List (List Char) := jointsFrom cs.length cs

/-- A larger bound changes nothing. -/
theorem jointsFrom_eq_joints {n : Nat} (h : cs.length ≤ n) : jointsFrom n cs = joints cs := by
  have bound : ∀ cs m n, cs.length ≤ m → cs.length ≤ n → jointsFrom m cs = jointsFrom n cs := by
    intro cs
    induction cs using piece_induction with
    | nil =>
      intro m n _ _
      cases m <;> cases n <;> rfl
    | piece cs used rest hpiece ih =>
      intro m n hm hn
      obtain ⟨hsplit, hused⟩ := piece?_split hpiece
      have hpos := List.length_pos_iff.mpr hused
      have hlength := congrArg List.length hsplit
      rw [List.length_append] at hlength
      obtain ⟨m, rfl⟩ : ∃ k, m = k + 1 := ⟨m - 1, by omega⟩
      obtain ⟨n, rfl⟩ : ∃ k, n = k + 1 := ⟨n - 1, by omega⟩
      simp only [jointsFrom, hpiece]
      rw [ih m n (by omega) (by omega)]
  exact bound cs n cs.length h (Nat.le_refl _)

@[simp] theorem joints_nil : joints [] = [[]] := rfl

theorem joints_piece (h : piece? cs = some (used, rest)) : joints cs = cs :: joints rest := by
  obtain ⟨hsplit, hused⟩ := piece?_split h
  have hpos := List.length_pos_iff.mpr hused
  have hlength := congrArg List.length hsplit
  rw [List.length_append] at hlength
  obtain ⟨n, hn⟩ : ∃ k, cs.length = k + 1 := ⟨cs.length - 1, by omega⟩
  rw [joints, hn, jointsFrom]
  simp only [h]
  rw [jointsFrom_eq_joints (by omega)]

theorem self_mem_joints (cs : List Char) : cs ∈ joints cs := by
  cases hpiece : piece? cs with
  | none =>
    cases cs with
    | nil => exact List.mem_singleton_self _
    | cons c cs => cases hpiece
  | some found =>
    rw [joints_piece hpiece]
    exact List.mem_cons_self

theorem suffix_of_mem_joints (h : rest ∈ joints cs) : rest <:+ cs := by
  induction cs using piece_induction with
  | nil =>
    rw [joints_nil, List.mem_singleton] at h
    exact h ▸ List.suffix_rfl
  | piece cs used left hpiece ih =>
    rw [joints_piece hpiece] at h
    rcases List.mem_cons.mp h with rfl | h
    · exact List.suffix_rfl
    · rw [(piece?_split hpiece).1]
      exact (ih h).trans (List.suffix_append _ _)

theorem mem_joints_trans {mid : List Char} (hmid : mid ∈ joints cs) (h : rest ∈ joints mid) :
    rest ∈ joints cs := by
  induction cs using piece_induction with
  | nil =>
    rw [joints_nil, List.mem_singleton] at hmid
    exact hmid ▸ h
  | piece cs used left hpiece ih =>
    rw [joints_piece hpiece] at hmid
    rcases List.mem_cons.mp hmid with rfl | hmid
    · exact h
    · rw [joints_piece hpiece]
      exact List.mem_cons_of_mem _ (ih hmid)

theorem Keyword.isBlank_text (k : Keyword) : ∀ c ∈ k.text.toList, isBlank c = false := by
  have hall : k.text.toList.all (fun c => isBlank c == false) = true := by cases k <;> decide
  intro c hc
  exact beq_iff_eq.mp (List.all_eq_true.mp hall c hc)

theorem Punct.isBlank_text (s : Punct) : ∀ c ∈ s.text.toList, isBlank c = false := by
  have hall : s.text.toList.all (fun c => isBlank c == false) = true := by cases s <;> decide
  intro c hc
  exact beq_iff_eq.mp (List.all_eq_true.mp hall c hc)

theorem isWordChar_blank (hb : isBlank b = true) : isWordChar b = false := by
  rw [Bool.eq_false_iff]
  intro hword
  simp only [isWordChar, Bool.or_eq_true, beq_iff_eq] at hword
  rcases hword with (hword | rfl) | rfl
  · rw [Text.isBlank_of_isAlphanum hword] at hb
    cases hb
  · exact absurd hb (by decide)
  · exact absurd hb (by decide)

/-- A blank is a piece of its own. -/
theorem piece?_blank (hb : isBlank b = true) (cs : List Char) :
    piece? (b :: cs) = some ([b], cs) := by
  by_cases hspace : isSpace b = true
  · exact piece?_gap (by rw [gap?, if_pos hspace])
  · have hpercent : b ≠ '%' := by
      rintro rfl
      exact absurd hb (by decide)
    have hgap : gap? (b :: cs) = none := by rw [gap?, if_neg hspace, if_neg hpercent]
    have hword := isWordChar_blank hb
    rcases hscan : scan b cs with ⟨lexeme, used, rest⟩
    rw [piece?_unit hgap hscan]
    -- No kind of unit starts with a blank, so the scan leaves it as it is.
    cases scanned_of_scan hscan with
    | identifier h | var h =>
      rw [word?_eq_none hword] at h
      cases h
    | number h =>
      rw [number?_eq_none (notDigit_of_notWord hword)] at h
      cases h
    | quoted h =>
      rw [quoted?_eq_none (by rintro rfl; exact absurd hb (by decide))] at h
      cases h
    | @keyword k rest h =>
      obtain ⟨ds, hds⟩ := toList_keyword k
      have hstart := (longest?_split h).2
      rw [hds, List.cons_append, List.cons.injEq] at hstart
      rw [hstart.1] at hb
      exact absurd hb (by decide)
    | @punct s rest h =>
      obtain ⟨d, ds, hds, -⟩ := toList_punct s
      have hstart := (longest?_split h).2
      have hd := s.isBlank_text d (by rw [hds]; exact List.mem_cons_self)
      rw [hds, List.cons_append, List.cons.injEq] at hstart
      rw [hstart.1, hd] at hb
      cases hb
    | stray => rfl

theorem getLast?_of_blockComment? (h : blockComment? cs = some (used, rest)) :
    used.getLast? = some '%' := by
  fun_induction blockComment? cs generalizing used with
  | case1 => cases h
  | case2 rest' =>
    cases h
    rfl
  | case3 c cs' _ ih =>
    simp only [Option.map_eq_some_iff, Prod.exists, Prod.mk.injEq] at h
    obtain ⟨used', after, hinside, rfl, rfl⟩ := h
    rw [List.getLast?_cons, ih hinside]
    rfl

theorem getLast?_of_quotedTail? (h : quotedTail? cs = some (used, rest)) :
    used.getLast? = some '"' := by
  fun_induction quotedTail? cs generalizing used with
  | case1 => cases h
  | case2 c rest' ih =>
    simp only [Option.map_eq_some_iff, Prod.exists, Prod.mk.injEq] at h
    obtain ⟨used', after, hinside, rfl, rfl⟩ := h
    rw [List.getLast?_cons, List.getLast?_cons, ih hinside]
    rfl
  | case3 rest' =>
    cases h
    rfl
  | case4 c rest' _ _ ih =>
    simp only [Option.map_eq_some_iff, Prod.exists, Prod.mk.injEq] at h
    obtain ⟨used', after, hinside, rfl, rfl⟩ := h
    rw [List.getLast?_cons, ih hinside]
    rfl

theorem getLast?_of_quoted? (h : quoted? cs = some (lexeme, used, rest)) :
    used.getLast? = some '"' := by
  unfold quoted? at h
  split at h
  · simp only [Option.map_eq_some_iff, Prod.exists, Prod.mk.injEq] at h
    obtain ⟨used', after, hinside, -, rfl, -⟩ := h
    rw [List.getLast?_cons, getLast?_of_quotedTail? hinside]
    rfl
  · cases h

/-- A comment ends with its line, unless it is a block comment that is closed. -/
theorem comment_cases (cs : List Char) :
    comment cs = (cs.takeWhile inLine, cs.dropWhile inLine) ∨
      (comment cs).1.getLast? = some '%' := by
  by_cases hline : ∀ inside, cs = '*' :: inside → blockComment? inside = none
  · exact .inl (comment_eq_line hline)
  · push Not at hline
    obtain ⟨inside, rfl, hblock⟩ := hline
    obtain ⟨⟨used, rest⟩, hblock⟩ := Option.ne_none_iff_exists'.mp hblock
    right
    rw [comment, hblock, List.getLast?_cons, getLast?_of_blockComment? hblock]
    rfl

/-- A piece over more than one line is a quoted text or a block comment. -/
theorem last_of_piece (h : piece? cs = some (used, rest)) (hfeed : '\n' ∈ used) :
    used = ['\n'] ∨ used.getLast? = some '"' ∨ used.getLast? = some '%' := by
  rcases piece?_cases h with hgap | ⟨c, ds, lexeme, rfl, -, hscan⟩
  · cases cs with
    | nil => cases hgap
    | cons c cs =>
      simp only [gap?] at hgap
      split at hgap
      · cases hgap
        rw [List.mem_singleton] at hfeed
        exact .inl (by rw [hfeed])
      · split at hgap
        · cases hgap
          rcases comment_cases cs with hline | hlast
          · rw [hline] at hfeed
            rcases List.mem_cons.mp hfeed with he | hfeed
            · exact absurd (he.trans ‹_›) (by decide)
            · exact absurd (List.mem_takeWhile_imp hfeed) (by decide)
          · right
            right
            rw [List.getLast?_cons, hlast]
            rfl
        · cases hgap
  · cases scanned_of_scan hscan with
    | identifier h | var h =>
      obtain ⟨rfl, -⟩ := word?_split h
      exact absurd (List.mem_takeWhile_imp hfeed) (by decide)
    | number h =>
      obtain ⟨rfl, -⟩ := number?_split h
      exact absurd (List.mem_takeWhile_imp hfeed) (by decide)
    | quoted h => exact .inr (.inl (getLast?_of_quoted? h))
    | @keyword k => exact absurd (k.isBlank_text _ hfeed) (by decide)
    | @punct s => exact absurd (s.isBlank_text _ hfeed) (by decide)
    | stray => exact .inl (by rw [List.mem_singleton.mp hfeed])

/-- Blanks at a joint lead to a joint. -/
theorem mem_joints_of_blanks (h : blanks ++ rest ∈ joints cs)
    (hblanks : ∀ b ∈ blanks, isBlank b = true) : rest ∈ joints cs := by
  induction blanks with
  | nil => exact h
  | cons b blanks ih =>
    refine ih (mem_joints_trans h ?_) fun d hd => hblanks d (List.mem_cons_of_mem b hd)
    rw [List.cons_append, joints_piece (piece?_blank (hblanks b List.mem_cons_self) _)]
    exact List.mem_cons_of_mem _ (self_mem_joints _)

/-- A piece that ends with a line feed and blanks has no such blanks. -/
theorem reach_eq_nil {reach : List Char} (h : piece? cs = some (before ++ reach, rest))
    (hfeed : before.getLast? = some '\n') (hblanks : ∀ b ∈ reach, isBlank b = true) :
    reach = [] := by
  by_contra hne
  have hlast : (before ++ reach).getLast? = some (reach.getLast hne) := by
    rw [List.getLast?_append, List.getLast?_eq_some_getLast hne, Option.some_or]
  have hblank := hblanks (reach.getLast hne) (List.getLast_mem hne)
  rcases last_of_piece h (List.mem_append_left _ (List.mem_of_getLast? hfeed)) with he | he | he
  · have hlength := congrArg List.length he
    have hreach := List.length_pos_iff.mpr hne
    have hpos : 0 < before.length := List.length_pos_iff.mpr (by rintro rfl; cases hfeed)
    simp only [List.length_append, List.length_singleton] at hlength
    omega
  · rw [hlast, Option.some.injEq] at he
    exact absurd (he ▸ hblank) (by decide)
  · rw [hlast, Option.some.injEq] at he
    exact absurd (he ▸ hblank) (by decide)

/-- Where a joint stands behind the blanks of a line, the line starts at a joint. -/
theorem lineStart_mem_joints (hbefore : before = [] ∨ before.getLast? = some '\n')
    (hblanks : ∀ b ∈ blanks, isBlank b = true) (h : rest ∈ joints (before ++ (blanks ++ rest))) :
    blanks ++ rest ∈ joints (before ++ (blanks ++ rest)) := by
  generalize hcs : before ++ (blanks ++ rest) = cs at h ⊢
  induction cs using piece_induction generalizing before with
  | nil =>
    obtain ⟨-, hnil⟩ := List.append_eq_nil_iff.mp hcs
    rw [hnil]
    exact self_mem_joints []
  | piece cs used left hpiece ih =>
    rw [joints_piece hpiece] at h ⊢
    rcases hbefore with rfl | hfeed
    · rw [← hcs]
      exact List.mem_cons_self
    have hleft : rest ∈ joints left := by
      rcases List.mem_cons.mp h with he | h
      · have hlength := congrArg List.length (he.trans hcs.symm)
        have hpos : 0 < before.length := List.length_pos_iff.mpr (by rintro rfl; cases hfeed)
        simp only [List.length_append] at hlength
        omega
      · exact h
    refine List.mem_cons_of_mem _ ?_
    rcases List.append_eq_append_iff.mp (hcs.trans (piece?_split hpiece).1) with
      ⟨reach, rfl, hreach⟩ | ⟨more, rfl, hmore⟩
    · -- the piece ends at the start of the line or among its blanks
      obtain ⟨skipped, rfl⟩ := suffix_of_mem_joints hleft
      rw [← List.append_assoc, List.append_cancel_right_eq] at hreach
      subst hreach
      have hnone := reach_eq_nil hpiece hfeed fun b hb => hblanks b (List.mem_append_left _ hb)
      rw [hnone, List.nil_append]
      exact self_mem_joints _
    · have hfront : more = [] ∨ more.getLast? = some '\n' := by
        by_cases hne : more = []
        · exact .inl hne
        · rw [List.getLast?_append, List.getLast?_eq_some_getLast hne, Option.some_or] at hfeed
          exact .inr ((List.getLast?_eq_some_getLast hne).trans hfeed)
      exact ih hfront hmore.symm hleft

end AspAtlas.Surface
