import AspAtlas.Proofs.Surface.Tokens
/-!
Cutting a text into tokens, one equation per kind of step. Gaps and units are cut off the front of
the text and nothing is lost, so that the bound on the number of steps is never reached.
-/
namespace AspAtlas.Surface

variable {c : Char} {cs used rest : List Char} {lexeme : Lexeme}

theorem blockComment?_split (h : blockComment? cs = some (used, rest)) : cs = used ++ rest := by
  fun_induction blockComment? cs generalizing used with
  | case1 => cases h
  | case2 rest' =>
    cases h
    rfl
  | case3 c cs' _ ih =>
    simp only [Option.map_eq_some_iff, Prod.exists, Prod.mk.injEq] at h
    obtain ⟨used', after, hinside, rfl, rfl⟩ := h
    rw [List.cons_append, ← ih hinside]

theorem comment_split (cs : List Char) : cs = (comment cs).1 ++ (comment cs).2 := by
  have hline : cs = cs.takeWhile (fun c => c != '\n' && c != '\r') ++
      cs.dropWhile fun c => c != '\n' && c != '\r' := List.takeWhile_append_dropWhile.symm
  simp only [comment]
  split
  · rename_i inside
    split
    · rename_i used rest hblock
      rw [List.cons_append, ← blockComment?_split hblock]
    · exact hline
  · exact hline

/-- A gap takes a character at least. -/
theorem gap?_split (h : gap? cs = some (used, rest)) : cs = used ++ rest ∧ used ≠ [] := by
  cases cs with
  | nil => cases h
  | cons c cs =>
    simp only [gap?] at h
    split at h
    · cases h
      exact ⟨rfl, List.cons_ne_nil _ _⟩
    · split at h
      · cases h
        exact ⟨by rw [List.cons_append, ← comment_split], List.cons_ne_nil _ _⟩
      · cases h

theorem quotedTail?_split (h : quotedTail? cs = some (used, rest)) : cs = used ++ rest := by
  fun_induction quotedTail? cs generalizing used with
  | case1 => cases h
  | case2 c rest' ih =>
    simp only [Option.map_eq_some_iff, Prod.exists, Prod.mk.injEq] at h
    obtain ⟨used', after, hinside, rfl, rfl⟩ := h
    rw [List.cons_append, List.cons_append, ← ih hinside]
  | case3 rest' =>
    cases h
    rfl
  | case4 c rest' _ _ ih =>
    simp only [Option.map_eq_some_iff, Prod.exists, Prod.mk.injEq] at h
    obtain ⟨used', after, hinside, rfl, rfl⟩ := h
    rw [List.cons_append, ← ih hinside]

theorem longest?_split {α : Type} {spelling : α → String} {table : List α} {entry : α}
    (h : longest? spelling table cs = some (entry, rest)) :
    entry ∈ table ∧ cs = (spelling entry).toList ++ rest := by
  obtain ⟨x, hx, hfound⟩ := List.exists_of_findSome?_eq_some h
  simp only [Option.map_eq_some_iff, Prod.mk.injEq] at hfound
  obtain ⟨rest', hlead, rfl, rfl⟩ := hfound
  exact ⟨hx, Text.afterLead?_eq_some_iff.mp hlead⟩

theorem word?_split (h : word? cs = some (lexeme, used, rest)) :
    used = cs.takeWhile isWordChar ∧ rest = cs.dropWhile isWordChar := by
  simp only [word?] at h
  split at h
  · split at h
    · cases h
      exact ⟨rfl, rfl⟩
    · split at h <;> cases h
      exact ⟨rfl, rfl⟩
  · split at h <;> cases h
    exact ⟨rfl, rfl⟩

theorem number?_split (h : number? cs = some (lexeme, used, rest)) :
    used = cs.takeWhile Char.isDigit ∧ rest = cs.dropWhile Char.isDigit := by
  simp only [number?] at h
  split at h <;> cases h
  exact ⟨rfl, rfl⟩

theorem quoted?_split (h : quoted? cs = some (lexeme, used, rest)) : cs = used ++ rest := by
  unfold quoted? at h
  split at h
  · simp only [Option.map_eq_some_iff, Prod.exists, Prod.mk.injEq] at h
    obtain ⟨used', after, hinside, -, rfl, rfl⟩ := h
    rw [List.cons_append, ← quotedTail?_split hinside]
  · cases h

theorem scan_split (h : scan c cs = (lexeme, used, rest)) : c :: cs = used ++ rest := by
  cases scanned_of_scan h with
  | identifier h | var h =>
    obtain ⟨rfl, rfl⟩ := word?_split h
    exact List.takeWhile_append_dropWhile.symm
  | number h =>
    obtain ⟨rfl, rfl⟩ := number?_split h
    exact List.takeWhile_append_dropWhile.symm
  | quoted h => exact quoted?_split h
  | keyword h | punct h => exact (longest?_split h).2
  | stray => rfl

theorem advanceBy_append (p : Position) (xs ys : List Char) :
    advanceBy p (xs ++ ys) = advanceBy (advanceBy p xs) ys :=
  List.foldl_append

/-- A symbol takes the characters that it is written with. -/
theorem used_of_scan_punct {symbol : Punct} (h : scan c cs = (.punct symbol, used, rest)) :
    used = symbol.text.toList := by
  cases scanned_of_scan h
  rfl

theorem scan_ne_finish (h : scan c cs = (lexeme, used, rest)) : lexeme ≠ .finish := by
  rintro rfl
  cases scanned_of_scan h

/-- Token lists that end with the end of a text, and have no other. -/
inductive Finished : List Token → Prop
  | last {t : Token} (ht : t.lexeme = .finish) : Finished [t]
  | cons {t : Token} {ts : List Token} (ht : t.lexeme ≠ .finish) (hts : Finished ts) :
      Finished (t :: ts)

namespace Finished

variable {t : Token} {ts own : List Token}

theorem tail_eq_nil (h : Finished (t :: ts)) (ht : t.lexeme = .finish) : ts = [] := by
  cases h with
  | last => rfl
  | cons hne => exact absurd ht hne

/-- Behind tokens other than the end of the text that end stands still. -/
theorem of_append (h : Finished (own ++ ts)) {last : Token} (hlast : own.getLast? = some last)
    (hne : last.lexeme ≠ .finish) : Finished ts := by
  induction own with
  | nil => cases hlast
  | cons t own ih =>
    cases own with
    | nil =>
      simp only [List.getLast?_singleton, Option.some.injEq] at hlast
      subst hlast
      cases h with
      | last ht => exact absurd ht hne
      | cons _ hts => exact hts
    | cons u own =>
      cases h with
      | cons _ hts => exact ih hts (by simpa using hlast)

end Finished

/-- The tokens of a text that starts at a position. -/
def lex (p : Position) (cs : List Char) : List Token := tokensFrom cs.length p cs []

theorem tokens_eq_lex (cs : List Char) : tokens cs = lex Position.start cs := rfl

/-- A larger bound changes nothing. -/
theorem tokensFrom_eq_lex {n : Nat} (p : Position) (h : cs.length ≤ n) :
    tokensFrom n p cs [] = lex p cs := by
  have bound : ∀ m n p cs, cs.length ≤ m → cs.length ≤ n →
      tokensFrom m p cs [] = tokensFrom n p cs [] := by
    intro m
    induction m with
    | zero =>
      intro n p cs hm _
      have hnil : cs = [] := List.length_eq_zero_iff.mp (Nat.le_zero.mp hm)
      subst hnil
      cases n <;> rfl
    | succ m ih =>
      intro n p cs hm hn
      cases cs with
      | nil => cases n <;> rfl
      | cons c cs =>
        obtain ⟨n, rfl⟩ : ∃ k, n = k + 1 := ⟨n - 1, by simp at hn; omega⟩
        simp only [tokensFrom]
        cases hgap : gap? (c :: cs) with
        | some found =>
          obtain ⟨used, rest⟩ := found
          obtain ⟨hsplit, hused⟩ := gap?_split hgap
          have hlength := congrArg List.length hsplit
          have hpos := List.length_pos_iff.mpr hused
          simp only [List.length_append, List.length_cons] at hlength hm hn
          exact ih n _ rest (by omega) (by omega)
        | none =>
          rcases hscan : scan c cs with ⟨lexeme, used, rest⟩
          have hlength := congrArg List.length (scan_split hscan)
          have hpos := List.length_pos_iff.mpr (used_of_scan hscan).1
          simp only [List.length_append, List.length_cons] at hlength hm hn
          simp only
          rw [tokensFrom_eq_append, tokensFrom_eq_append n, ih n _ rest (by omega) (by omega)]
  exact bound n cs.length p cs h (Nat.le_refl _)

@[simp] theorem lex_nil (p : Position) : lex p [] = [⟨.finish, p, p⟩] := rfl

/-- Gaps leave no token. -/
theorem lex_gap (p : Position) (h : gap? cs = some (used, rest)) :
    lex p cs = lex (advanceBy p used) rest := by
  obtain ⟨hsplit, hused⟩ := gap?_split h
  cases cs with
  | nil => cases h
  | cons c cs =>
    have hlength := congrArg List.length hsplit
    have hpos := List.length_pos_iff.mpr hused
    simp only [List.length_append, List.length_cons] at hlength
    rw [lex, List.length_cons, tokensFrom, h]
    exact tokensFrom_eq_lex _ (by omega)

/-- Where no gap is, a unit is cut off. -/
theorem lex_scan (p : Position) (hgap : gap? (c :: cs) = none)
    (h : scan c cs = (lexeme, used, rest)) :
    lex p (c :: cs) = ⟨lexeme, p, advanceBy p used⟩ :: lex (advanceBy p used) rest := by
  have hlength := congrArg List.length (scan_split h)
  have hpos := List.length_pos_iff.mpr (used_of_scan h).1
  simp only [List.length_append, List.length_cons] at hlength
  rw [lex, List.length_cons, tokensFrom, hgap]
  simp only [h]
  rw [tokensFrom_eq_append, tokensFrom_eq_lex _ (by omega)]
  rfl

/-- What holds at the end of a text, and in front of a gap or a unit when it holds behind, holds at
every place of a text. -/
theorem lex_induction {motive : Position → List Char → Prop} (nil : ∀ p, motive p [])
    (gap : ∀ p cs used rest, gap? cs = some (used, rest) → motive (advanceBy p used) rest →
      motive p cs)
    (unit : ∀ p c cs lexeme used rest, gap? (c :: cs) = none → scan c cs = (lexeme, used, rest) →
      motive (advanceBy p used) rest → motive p (c :: cs))
    (p : Position) (cs : List Char) : motive p cs := by
  induction hn : cs.length using Nat.strongRecOn generalizing p cs with
  | _ n ih =>
    subst hn
    cases cs with
    | nil => exact nil p
    | cons c cs =>
      cases hgap : gap? (c :: cs) with
      | some found =>
        obtain ⟨used, rest⟩ := found
        obtain ⟨hsplit, hused⟩ := gap?_split hgap
        have hpos := List.length_pos_iff.mpr hused
        refine gap p _ used rest hgap (ih _ ?_ _ rest rfl)
        rw [hsplit, List.length_append]
        omega
      | none =>
        rcases hscan : scan c cs with ⟨lexeme, used, rest⟩
        have hpos := List.length_pos_iff.mpr (used_of_scan hscan).1
        refine unit p c cs lexeme used rest hgap hscan (ih _ ?_ _ rest rfl)
        rw [scan_split hscan, List.length_append]
        omega

theorem lex_finished (p : Position) (cs : List Char) : Finished (lex p cs) := by
  induction p, cs using lex_induction with
  | nil p => exact .last rfl
  | gap p cs skipped rest hgap ih =>
    rw [lex_gap p hgap]
    exact ih
  | unit p c cs lexeme taken rest hgap hscan ih =>
    rw [lex_scan p hgap hscan]
    exact .cons (scan_ne_finish hscan) ih

theorem lex_ne_nil (p : Position) (cs : List Char) : lex p cs ≠ [] := by
  intro h
  have hascending := (tokensFrom_ascending cs.length p cs).2
  rw [lex] at h
  rw [h] at hascending
  cases hascending

/-- A token stands where its characters are in the text. -/
theorem mem_lex {p : Position} {t : Token} (ht : t ∈ lex p cs) (hfinish : t.lexeme ≠ .finish) :
    ∃ before used after, cs = before ++ used ++ after ∧ t.begin = advanceBy p before ∧
      t.stop = advanceBy p (before ++ used) ∧ ∀ s, t.lexeme = .punct s → used = s.text.toList := by
  induction p, cs using lex_induction with
  | nil p =>
    rw [lex_nil, List.mem_singleton] at ht
    subst ht
    exact absurd rfl hfinish
  | gap p cs skipped rest hgap ih =>
    rw [lex_gap p hgap] at ht
    obtain ⟨before, used, after, hrest, hbegin, hstop, hpunct⟩ := ih ht
    refine ⟨skipped ++ before, used, after, ?_, ?_, ?_, hpunct⟩
    · rw [(gap?_split hgap).1, hrest]
      simp
    · rw [hbegin, advanceBy_append]
    · rw [hstop, List.append_assoc, advanceBy_append p skipped]
  | unit p c cs lexeme taken rest hgap hscan ih =>
    rw [lex_scan p hgap hscan] at ht
    rcases List.mem_cons.mp ht with rfl | ht
    · refine ⟨[], taken, rest, scan_split hscan, rfl, rfl, ?_⟩
      rintro s rfl
      exact used_of_scan_punct hscan
    · obtain ⟨before, used, after, hrest, hbegin, hstop, hpunct⟩ := ih ht
      refine ⟨taken ++ before, used, after, ?_, ?_, ?_, hpunct⟩
      · rw [scan_split hscan, hrest]
        simp
      · rw [hbegin, advanceBy_append]
      · rw [hstop, List.append_assoc, advanceBy_append p taken]

end AspAtlas.Surface
