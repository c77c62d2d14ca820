import AspAtlas.Proofs.Text.Lines
/-!
What the lines of a text keep of it. Joined by line feeds again, they show every piece of
the text that ends within a line, with a carriage return and a line feed read as a line
feed; other carriage returns stay.
-/
namespace AspAtlas.Text

open Surface (advanceBy)

variable {c : Char} {cs : List Char}

/-- A text with every carriage return right before a line feed left out. -/
def plainFeeds : List Char → List Char
  | [] => []
  | c :: cs => if c = '\r' ∧ cs.head? = some '\n' then plainFeeds cs else c :: plainFeeds cs

@[simp] theorem lines_nil : lines [] = [] := rfl

theorem finishLines_cons {piece : List Char} {rest : List (List Char)} (h : rest ≠ []) :
    finishLines (piece :: rest) = dropReturn piece :: finishLines rest := by
  cases rest with
  | nil => exact absurd rfl h
  | cons next rest => rfl

@[simp] theorem lines_feed (cs : List Char) : lines ('\n' :: cs) = [] :: lines cs := by
  rw [lines, feedPieces_feed, finishLines_cons (feedPieces_ne_nil cs)]
  rfl

theorem lines_ne_nil (h : cs ≠ []) : lines cs ≠ [] := by
  obtain ⟨c, cs, rfl⟩ := List.exists_cons_of_ne_nil h
  obtain ⟨piece, rest, hpieces⟩ := List.exists_cons_of_ne_nil (feedPieces_ne_nil cs)
  by_cases hc : c = '\n'
  · subst hc
    rw [lines_feed]
    exact List.cons_ne_nil _ _
  · rw [lines, feedPieces_cons hc hpieces]
    cases rest with
    | nil => simp [finishLines]
    | cons next rest => simp [finishLines]

/-- A carriage return belongs to the line end behind it. -/
theorem lines_return (h : cs.head? = some '\n') : lines ('\r' :: cs) = lines cs := by
  cases cs with
  | nil => cases h
  | cons d cs =>
    obtain rfl : d = '\n' := by simpa using h
    have hpieces : feedPieces ('\n' :: cs) = [] :: feedPieces cs := feedPieces_feed cs
    rw [lines, lines, feedPieces_cons (by decide) hpieces, hpieces,
      finishLines_cons (feedPieces_ne_nil cs), finishLines_cons (feedPieces_ne_nil cs)]
    rfl

/-- Where the first piece is empty and not the last one, a line feed stands. -/
theorem head_of_feedPieces {next : List Char} {rest : List (List Char)}
    (h : feedPieces cs = [] :: next :: rest) : cs.head? = some '\n' := by
  cases cs with
  | nil => cases h
  | cons c cs =>
    by_cases hc : c = '\n'
    · rw [hc, List.head?_cons]
    · obtain ⟨piece, rest', hpieces⟩ := List.exists_cons_of_ne_nil (feedPieces_ne_nil cs)
      rw [feedPieces_cons hc hpieces] at h
      cases h

/-- Any other character starts the first line. -/
theorem lines_cons (hc : c ≠ '\n') (h : ¬(c = '\r' ∧ cs.head? = some '\n')) :
    lines (c :: cs) = (c :: (lines cs).headD []) :: (lines cs).tail := by
  obtain ⟨piece, rest, hpieces⟩ := List.exists_cons_of_ne_nil (feedPieces_ne_nil cs)
  rw [lines, lines, feedPieces_cons hc hpieces, hpieces]
  cases rest with
  | nil => cases piece <;> simp [finishLines]
  | cons next rest =>
    cases piece with
    | nil =>
      have hfeed : cs.head? = some '\n' := head_of_feedPieces hpieces
      have hreturn : c ≠ '\r' := fun he => h ⟨he, hfeed⟩
      simp [finishLines, dropReturn, hreturn]
    | cons d piece =>
      have hdrop : dropReturn ([c] ++ d :: piece) = [c] ++ dropReturn (d :: piece) :=
        dropReturn_append (List.cons_ne_nil d piece)
      rw [List.singleton_append, List.singleton_append] at hdrop
      simp [finishLines, hdrop]

/-- The front of a text is a line feed, the carriage return of one, or
the first character of a line. -/
theorem lines_cons_cases (c : Char) (cs : List Char) :
    c = '\n' ∨ (c = '\r' ∧ cs.head? = some '\n') ∨
      (c ≠ '\n' ∧ ¬(c = '\r' ∧ cs.head? = some '\n')) := by
  by_cases hc : c = '\n'
  · exact .inl hc
  · by_cases hreturn : c = '\r' ∧ cs.head? = some '\n'
    · exact .inr (.inl hreturn)
    · exact .inr (.inr ⟨hc, hreturn⟩)

/-- A text that ends within a line has that line and one for every line feed. -/
theorem count_feed_lt_length_lines {before : List Char} {last : Char} (behind : List Char)
    (hlast : before.getLast? = some last) (hne : last ≠ '\n') :
    before.count '\n' < (lines (before ++ behind)).length := by
  induction before with
  | nil => cases hlast
  | cons c before ih =>
    cases before with
    | nil =>
      obtain rfl : c = last := by simpa using hlast
      have hlines := List.length_pos_iff.mpr (lines_ne_nil (List.cons_ne_nil c behind))
      simpa [List.count_cons, hne] using hlines
    | cons d before =>
      have ih := ih (by simpa using hlast)
      rw [List.cons_append]
      rcases lines_cons_cases c (d :: before ++ behind) with rfl | ⟨rfl, hfeed⟩ | ⟨hc, hother⟩
      · rw [lines_feed, List.count_cons_self, List.length_cons]
        omega
      · rw [lines_return hfeed, List.count_cons_of_ne (by decide)]
        exact ih
      · rw [lines_cons hc hother, List.count_cons_of_ne hc, List.length_cons, List.length_tail]
        omega

@[simp] theorem restOfLine_nil : restOfLine [] = [] := rfl

@[simp] theorem restOfLine_feed (cs : List Char) : restOfLine ('\n' :: cs) = [] := by
  rw [restOfLine, lines_feed]
  rfl

theorem restOfLine_return (h : cs.head? = some '\n') : restOfLine ('\r' :: cs) = [] := by
  obtain ⟨d, cs, rfl⟩ : ∃ d ds, cs = d :: ds := by
    cases cs with
    | nil => cases h
    | cons d ds => exact ⟨d, ds, rfl⟩
  obtain rfl : d = '\n' := by simpa using h
  rw [restOfLine, lines_return h, ← restOfLine, restOfLine_feed]

theorem restOfLine_cons (hc : c ≠ '\n') (h : ¬(c = '\r' ∧ cs.head? = some '\n')) :
    restOfLine (c :: cs) = c :: restOfLine cs := by
  rw [restOfLine, lines_cons hc h, List.head?_cons, Option.getD_some, restOfLine,
    List.headD_eq_head?_getD]

/-- What a line starts with the text starts with, and the line goes on with the text behind. -/
theorem exists_of_restOfLine {front back : List Char} (h : restOfLine cs = front ++ back) :
    ∃ rest, cs = front ++ rest ∧ restOfLine rest = back := by
  induction front generalizing cs with
  | nil => exact ⟨cs, rfl, h⟩
  | cons d front ih =>
    cases cs with
    | nil => cases h
    | cons c cs =>
      rcases lines_cons_cases c cs with rfl | ⟨rfl, hfeed⟩ | ⟨hc, hother⟩
      · rw [restOfLine_feed] at h
        cases h
      · rw [restOfLine_return hfeed] at h
        cases h
      · rw [restOfLine_cons hc hother, List.cons_append, List.cons.injEq] at h
        obtain ⟨rest, rfl, hrest⟩ := ih h.2
        exact ⟨rest, by rw [h.1, List.cons_append], hrest⟩

/-- The line of a text at a number starts behind so many line feeds. -/
theorem exists_lineStart {i : Nat} {line : List Char} (h : (lines cs)[i]? = some line) :
    ∃ before rest, cs = before ++ rest ∧ (before = [] ∨ before.getLast? = some '\n') ∧
      before.count '\n' = i ∧ restOfLine rest = line := by
  induction cs generalizing i with
  | nil => simp at h
  | cons c cs ih =>
    have further {j : Nat} (hj : (lines cs)[j]? = some line) (hpos : j ≠ 0 ∨ c = '\n') :
        ∃ before rest, c :: cs = before ++ rest ∧ (before = [] ∨ before.getLast? = some '\n') ∧
          before.count '\n' = (if c = '\n' then j + 1 else j) ∧ restOfLine rest = line := by
      obtain ⟨before, rest, rfl, hbefore, hcount, hline⟩ := ih hj
      refine ⟨c :: before, rest, rfl, .inr ?_, ?_, hline⟩
      · rcases hbefore with rfl | hfeed
        · rcases hpos with hpos | rfl
          · exact absurd hcount.symm hpos
          · rfl
        · rw [List.getLast?_cons, hfeed]
          rfl
      · rw [List.count_cons, hcount]
        split <;> simp_all
    rcases lines_cons_cases c cs with rfl | ⟨rfl, hfeed⟩ | ⟨hc, hother⟩
    · cases i with
      | zero =>
        rw [lines_feed, List.getElem?_cons_zero, Option.some.injEq] at h
        exact ⟨[], _, rfl, .inl rfl, rfl, by rw [restOfLine_feed, h]⟩
      | succ i =>
        rw [lines_feed, List.getElem?_cons_succ] at h
        simpa using further h (.inr rfl)
    · rw [lines_return hfeed] at h
      cases i with
      | zero =>
        refine ⟨[], _, rfl, .inl rfl, rfl, ?_⟩
        rw [restOfLine, lines_return hfeed, List.head?_eq_getElem?, h]
        rfl
      | succ i => simpa using further h (.inl (Nat.succ_ne_zero i))
    · cases i with
      | zero =>
        refine ⟨[], _, rfl, .inl rfl, rfl, ?_⟩
        rw [restOfLine, List.head?_eq_getElem?, h]
        rfl
      | succ i =>
        rw [lines_cons hc hother, List.getElem?_cons_succ, List.getElem?_tail] at h
        simpa [hc] using further h (.inl (Nat.succ_ne_zero i))

/-- The line with the number of a line start is the one that starts there. -/
theorem getElem?_lineStart {before : List Char} (behind : List Char)
    (hbefore : before = [] ∨ before.getLast? = some '\n') :
    (lines (before ++ behind))[before.count '\n']? = (lines behind).head? := by
  induction before with
  | nil => rw [List.nil_append, List.count_nil, List.head?_eq_getElem?]
  | cons c before ih =>
    have hlast : before = [] ∨ before.getLast? = some '\n' := by
      rcases hbefore with hnil | hlast
      · cases hnil
      · cases before with
        | nil => exact .inl rfl
        | cons d before => exact .inr (by simpa using hlast)
    rw [List.cons_append]
    rcases lines_cons_cases c (before ++ behind) with rfl | ⟨rfl, hfeed⟩ | ⟨hc, hother⟩
    · rw [lines_feed, List.count_cons_self, List.getElem?_cons_succ, ih hlast]
    · rw [lines_return hfeed, List.count_cons_of_ne (by decide), ih hlast]
    · have hne : before ≠ [] := by
        rintro rfl
        simp [hc] at hbefore
      have hin : '\n' ∈ before := List.mem_of_getLast? (hlast.resolve_left hne)
      obtain ⟨k, hk⟩ : ∃ k, before.count '\n' = k + 1 :=
        ⟨before.count '\n' - 1, by have := List.count_pos_iff.mpr hin; omega⟩
      rw [← ih hlast, lines_cons hc hother, List.count_cons_of_ne hc, hk, List.getElem?_cons_succ,
        List.getElem?_tail]

theorem line_advanceBy (p : Position) (cs : List Char) :
    (advanceBy p cs).line = p.line + cs.count '\n' := by
  induction cs generalizing p with
  | nil => rfl
  | cons c cs ih =>
    rw [advanceBy, List.foldl_cons, ← advanceBy, ih, Position.advance, List.count_cons]
    split <;> simp_all
    omega

theorem column_lineStart {before : List Char}
    (hbefore : before = [] ∨ before.getLast? = some '\n') :
    (advanceBy Position.start before).column = 1 := by
  rcases hbefore with rfl | hlast
  · rfl
  · obtain ⟨init, rfl⟩ := List.getLast?_eq_some_iff.mp hlast
    rw [advanceBy, List.foldl_append]
    rfl

/-- What follows a position in its line is the rest of the line that the text there starts in. -/
theorem drop_of_line_at (before behind : List Char) {line : List Char}
    (h : (lines (before ++ behind))[(advanceBy Position.start before).line - 1]? = some line) :
    line.drop ((advanceBy Position.start before).column - 1) = restOfLine behind := by
  by_cases hbefore : before = [] ∨ before.getLast? = some '\n'
  · have hline : (advanceBy Position.start before).line - 1 = before.count '\n' := by
      rw [line_advanceBy]
      exact Nat.add_sub_cancel_left 1 _
    rw [hline, getElem?_lineStart behind hbefore] at h
    rw [column_lineStart hbefore, restOfLine, h]
    rfl
  · have hne : before ≠ [] := fun he => hbefore (.inl he)
    have hlast := List.getLast?_eq_some_getLast hne
    obtain ⟨found, hfound, hdrop⟩ := lines_at before behind hlast
      fun he => hbefore (.inr (hlast.trans (congrArg some he)))
    rw [h, Option.some.injEq] at hfound
    rw [hfound, hdrop]

/-- Lines, joined by line feeds. -/
abbrev joinLines (ls : List (List Char)) : List Char := List.intercalate ['\n'] ls

theorem joinLines_nil_cons {ls : List (List Char)} (h : ls ≠ []) :
    joinLines ([] :: ls) = '\n' :: joinLines ls := by
  obtain ⟨l, ls, rfl⟩ := List.exists_cons_of_ne_nil h
  rw [joinLines, List.intercalate_cons_cons]
  rfl

theorem joinLines_cons (c : Char) (l : List Char) (ls : List (List Char)) :
    joinLines ((c :: l) :: ls) = c :: joinLines (l :: ls) := by
  cases ls with
  | nil => simp [joinLines]
  | cons next ls => simp [joinLines, List.intercalate_cons_cons]

/-- The first lines of a text show all of it that ends within them. -/
theorem plainFeeds_prefix_joinLines {own : List Char} {last : Char} {m : Nat} (behind : List Char)
    (hlast : own.getLast? = some last) (hfeed : last ≠ '\n') (hreturn : last ≠ '\r')
    (hm : own.count '\n' < m) : plainFeeds own <+: joinLines ((lines (own ++ behind)).take m) := by
  induction own generalizing m with
  | nil => cases hlast
  | cons c own ih =>
    obtain ⟨m, rfl⟩ : ∃ k, m = k + 1 := ⟨m - 1, by omega⟩
    cases own with
    | nil =>
      obtain rfl : c = last := by simpa using hlast
      have hother : ¬(c = '\r' ∧ behind.head? = some '\n') := fun h => hreturn h.1
      rw [List.singleton_append, lines_cons hfeed hother, List.take_succ_cons, joinLines_cons]
      simp [plainFeeds]
    | cons d own =>
      have hlast : (d :: own).getLast? = some last := by simpa using hlast
      have hne : d :: own ++ behind ≠ [] := by simp
      rw [List.cons_append]
      rcases lines_cons_cases c (d :: own ++ behind) with rfl | ⟨rfl, hhead⟩ | ⟨hc, hother⟩
      · rw [List.count_cons_self] at hm
        have hnext : (lines (d :: own ++ behind)).take m ≠ [] := by
          rw [Ne, List.take_eq_nil_iff]
          exact not_or_intro (by omega) (lines_ne_nil hne)
        rw [lines_feed, List.take_succ_cons, joinLines_nil_cons hnext, plainFeeds, if_neg (by simp)]
        exact (List.prefix_cons_inj _).mpr (ih hlast (by omega))
      · rw [List.count_cons_of_ne (by decide)] at hm
        rw [lines_return hhead, plainFeeds, if_pos ⟨rfl, by simpa using hhead⟩]
        exact ih hlast hm
      · rw [List.count_cons_of_ne hc] at hm
        obtain ⟨l, ls, hlines⟩ := List.exists_cons_of_ne_nil (lines_ne_nil hne)
        have ih := ih hlast hm
        rw [hlines] at ih
        rw [lines_cons hc hother, hlines, List.headD_cons, List.tail_cons, List.take_succ_cons,
          joinLines_cons, plainFeeds, if_neg (by simpa using hother)]
        exact (List.prefix_cons_inj _).mpr ih

/-- The lines from the one that a piece of a text starts in to one where it has ended show it. -/
theorem plainFeeds_infix_joinLines (before : List Char) {own : List Char} {last : Char} {m : Nat}
    (behind : List Char) (hlast : own.getLast? = some last) (hfeed : last ≠ '\n')
    (hreturn : last ≠ '\r') (hm : (before ++ own).count '\n' < m) :
    plainFeeds own <:+:
      joinLines (((lines (before ++ own ++ behind)).take m).drop (before.count '\n')) := by
  induction before generalizing m with
  | nil => exact (plainFeeds_prefix_joinLines behind hlast hfeed hreturn hm).isInfix
  | cons c before ih =>
    obtain ⟨m, rfl⟩ : ∃ k, m = k + 1 := ⟨m - 1, by omega⟩
    have hown : own ≠ [] := by
      rintro rfl
      cases hlast
    have hne : before ++ own ++ behind ≠ [] := by simp [hown]
    rw [List.cons_append] at hm
    rw [List.cons_append, List.cons_append]
    rcases lines_cons_cases c (before ++ own ++ behind) with rfl | ⟨rfl, hhead⟩ | ⟨hc, hother⟩
    · rw [List.count_cons_self] at hm
      rw [lines_feed, List.count_cons_self, List.take_succ_cons, List.drop_succ_cons]
      exact ih (by omega)
    · rw [List.count_cons_of_ne (by decide)] at hm
      rw [lines_return hhead, List.count_cons_of_ne (by decide)]
      exact ih hm
    · rw [List.count_cons_of_ne hc] at hm
      obtain ⟨l, ls, hlines⟩ := List.exists_cons_of_ne_nil (lines_ne_nil hne)
      have ih := ih hm
      rw [hlines, List.take_succ_cons] at ih
      rw [lines_cons hc hother, hlines, List.headD_cons, List.tail_cons, List.count_cons_of_ne hc,
        List.take_succ_cons]
      cases hcount : before.count '\n' with
      | zero =>
        rw [hcount, List.drop_zero] at ih
        rw [List.drop_zero, joinLines_cons]
        exact ih.trans (List.suffix_cons _ _).isInfix
      | succ k =>
        rw [hcount, List.drop_succ_cons] at ih
        rw [List.drop_succ_cons]
        exact ih

end AspAtlas.Text
