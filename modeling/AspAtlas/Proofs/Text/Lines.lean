import AspAtlas.Surface.Lexer
import AspAtlas.Text.Lines
/-!
Positions and physical lines. A position behind a piece of text tells how many lines are complete
and how many characters of the next one were passed.
-/
namespace AspAtlas.Text

open Surface (advanceBy)

/-- What is left of the line that a text starts in. -/
def restOfLine (cs : List Char) : List Char := ((lines cs).head?).getD []

theorem feedPieces_cons {c : Char} {cs piece : List Char} {rest : List (List Char)} (hc : c ≠ '\n')
    (h : feedPieces cs = piece :: rest) : feedPieces (c :: cs) = (c :: piece) :: rest := by
  simp only [feedPieces] at h
  simp only [feedPieces, List.foldr_cons, hc, if_false, h]

/-- The feed pieces of a text: complete ones and a last one, which goes on with more text. -/
structure Pieces (before : List Char) (complete : List (List Char))
    (current : List Char) : Prop where
  position : ∀ l k, advanceBy ⟨l, k⟩ before =
    ⟨l + complete.length, (if complete = [] then k else 1) + current.length⟩
  current_ne_nil : ∀ c, before.getLast? = some c → c ≠ '\n' → current ≠ []
  append : ∀ behind piece rest, feedPieces behind = piece :: rest →
    feedPieces (before ++ behind) = complete ++ (current ++ piece) :: rest

namespace Pieces

variable {c : Char} {before current first : List Char} {complete : List (List Char)}

theorem nil : Pieces [] [] [] := ⟨by simp [advanceBy], by simp, by simp⟩

theorem feed (h : Pieces before complete current) :
    Pieces ('\n' :: before) ([] :: complete) current where
  position l k := by
    have hadvance : Position.advance ⟨l, k⟩ '\n' = ⟨l + 1, 1⟩ := rfl
    rw [advanceBy, List.foldl_cons, hadvance, ← advanceBy, h.position]
    simp
    omega
  current_ne_nil d hd hne := by
    cases before with
    | nil =>
      simp only [List.getLast?_singleton, Option.some.injEq] at hd
      exact absurd hd.symm hne
    | cons e before => exact h.current_ne_nil d (by simpa using hd) hne
  append behind piece rest hbehind := by
    simp [h.append behind piece rest hbehind]

/-- The line of a text without line feed goes on. -/
theorem more (hc : c ≠ '\n') (h : Pieces before [] current) :
    Pieces (c :: before) [] (c :: current) where
  position l k := by
    have hadvance : Position.advance ⟨l, k⟩ c = ⟨l, k + 1⟩ := if_neg hc
    rw [advanceBy, List.foldl_cons, hadvance, ← advanceBy, h.position]
    simp
    omega
  current_ne_nil _ _ _ := List.cons_ne_nil _ _
  append behind piece rest hbehind := feedPieces_cons hc (h.append behind piece rest hbehind)

/-- A character in front of complete pieces is one of the first of them. -/
theorem moreFirst (hc : c ≠ '\n') (h : Pieces before (first :: complete) current) :
    Pieces (c :: before) ((c :: first) :: complete) current where
  position l k := by
    have hadvance : Position.advance ⟨l, k⟩ c = ⟨l, k + 1⟩ := if_neg hc
    rw [advanceBy, List.foldl_cons, hadvance, ← advanceBy, h.position]
    simp
  current_ne_nil d hd hne := by
    cases before with
    | nil =>
      have hnone := h.append [] [] [] rfl
      simp [feedPieces] at hnone
    | cons e before => exact h.current_ne_nil d (by simpa using hd) hne
  append behind piece rest hbehind := feedPieces_cons hc (h.append behind piece rest hbehind)

end Pieces

theorem exists_pieces (before : List Char) :
    ∃ complete current, Pieces before complete current := by
  induction before with
  | nil => exact ⟨[], [], .nil⟩
  | cons c before ih =>
    obtain ⟨complete, current, h⟩ := ih
    by_cases hc : c = '\n'
    · subst hc
      exact ⟨_, _, h.feed⟩
    · cases complete with
      | nil => exact ⟨_, _, h.more hc⟩
      | cons first complete => exact ⟨_, _, h.moreFirst hc⟩

/-- Complete pieces are lines of their own. -/
theorem finishLines_append (complete rest : List (List Char)) (hrest : rest ≠ []) :
    finishLines (complete ++ rest) = complete.map dropReturn ++ finishLines rest := by
  induction complete with
  | nil => rfl
  | cons piece complete ih =>
    obtain ⟨x, xs, hxs⟩ := List.exists_cons_of_ne_nil (l := complete ++ rest) (by simp [hrest])
    rw [List.cons_append, hxs, finishLines, ← hxs, ih, List.map_cons, List.cons_append]
    exact List.cons_ne_nil x xs

theorem dropReturn_append {current piece : List Char} (h : piece ≠ []) :
    dropReturn (current ++ piece) = current ++ dropReturn piece := by
  simp only [dropReturn, List.getLast?_append, List.getLast?_eq_some_getLast h, Option.some_or]
  split
  · rw [List.dropLast_append_of_ne_nil h]
  · rfl

/-- The line of a position behind some text goes on with the text there, unless the position is at
the start of a line. -/
theorem lines_at (before behind : List Char) {c : Char} (hlast : before.getLast? = some c)
    (hc : c ≠ '\n') :
    ∃ line, (lines (before ++ behind))[(advanceBy Position.start before).line - 1]? = some line ∧
      line.drop ((advanceBy Position.start before).column - 1) = restOfLine behind := by
  obtain ⟨complete, current, h⟩ := exists_pieces before
  obtain ⟨piece, rest, hbehind⟩ := List.exists_cons_of_ne_nil (feedPieces_ne_nil behind)
  have hcurrent := h.current_ne_nil c hlast hc
  have hline : (advanceBy Position.start before).line - 1 = complete.length := by
    rw [Position.start, h.position 1 1]
    simp
  have hcolumn : (advanceBy Position.start before).column - 1 = current.length := by
    rw [Position.start, h.position 1 1]
    split <;> simp
  rw [hline, hcolumn, lines, h.append behind piece rest hbehind,
    finishLines_append _ _ (List.cons_ne_nil _ _), List.getElem?_append_right (by simp),
    List.length_map, Nat.sub_self, restOfLine, lines, hbehind]
  cases rest with
  | nil => cases piece <;> simp [finishLines, hcurrent]
  | cons second rest =>
    refine ⟨dropReturn (current ++ piece), by simp [finishLines], ?_⟩
    cases piece with
    | nil =>
      have hshort : (dropReturn current).length ≤ current.length := by
        unfold dropReturn
        split <;> simp
      simpa [finishLines, dropReturn] using hshort
    | cons d piece => simp [finishLines, dropReturn_append (List.cons_ne_nil d piece)]

end AspAtlas.Text
