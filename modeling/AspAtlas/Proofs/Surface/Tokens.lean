import AspAtlas.Proofs.Location.Order
import AspAtlas.Surface.Lexer
import AspAtlas.Surface.Reading
/-!
The tokens of a text stand one behind the other, and none is empty.
-/
namespace AspAtlas.Surface

/-- Tokens in the order of the text, up to its end. Two dots in a row can be taken apart. -/
inductive Ascending : List Token → Prop
  | finish {p : Position} : Ascending [⟨.finish, p, p⟩]
  | token {t : Token} {ts : List Token} (ht : t.begin < t.stop) (hnext : t.stop ≤ beginOf ts)
      (hdots : t.lexeme = .punct .dots → t.begin.advance '.' < t.stop) (hts : Ascending ts) :
      Ascending (t :: ts)

namespace Ascending

/-- A token that is not the last one is followed by others. -/
theorem tail {t : Token} {ts : List Token} (h : Ascending (t :: ts)) (ht : t.lexeme ≠ .finish) :
    t.begin < t.stop ∧ t.stop ≤ beginOf ts ∧ Ascending ts := by
  cases h with
  | finish => exact absurd rfl ht
  | token hlt hnext _ hts => exact ⟨hlt, hnext, hts⟩

/-- The second of two dots can be read on its own. -/
theorem split_dots {begin stop : Position} {ts : List Token}
    (h : Ascending (⟨.punct .dots, begin, stop⟩ :: ts)) :
    begin < begin.advance '.' ∧
      Ascending (⟨.punct .dot, begin.advance '.', stop⟩ :: ts) := by
  cases h with
  | token hlt hnext hdots hts =>
    refine ⟨begin.lt_advance '.', .token (hdots rfl) hnext ?_ hts⟩
    intro hdot
    simp at hdot

end Ascending

theorem le_advanceBy (p : Position) (used : List Char) : p ≤ advanceBy p used := by
  induction used generalizing p with
  | nil => exact le_refl p
  | cons c used ih => exact (p.lt_advance c).le.trans (ih (p.advance c))

theorem lt_advanceBy (p : Position) {used : List Char} (h : used ≠ []) : p < advanceBy p used := by
  cases used with
  | nil => exact absurd rfl h
  | cons c used => exact (p.lt_advance c).trans_le (le_advanceBy (p.advance c) used)

theorem Keyword.toList_text_ne_nil (k : Keyword) : k.text.toList ≠ [] := by cases k <;> decide

theorem Punct.toList_text_ne_nil (s : Punct) : s.text.toList ≠ [] := by cases s <;> decide

section Scanning

variable {c : Char} {cs used rest : List Char} {lexeme : Lexeme}

theorem lexeme_of_word? (h : word? cs = some (lexeme, used, rest)) :
    (∃ name, lexeme = .identifier name) ∨ ∃ name, lexeme = .var name := by
  simp only [word?] at h
  split at h
  · split at h
    · cases h
      exact .inl ⟨_, rfl⟩
    · split at h <;> cases h
      exact .inr ⟨_, rfl⟩
  · split at h <;> cases h
    exact .inr ⟨_, rfl⟩

theorem lexeme_of_number? (h : number? cs = some (lexeme, used, rest)) :
    ∃ digits, lexeme = .number digits := by
  simp only [number?] at h
  split at h <;> cases h
  exact ⟨_, rfl⟩

theorem lexeme_of_quoted? (h : quoted? cs = some (lexeme, used, rest)) :
    ∃ text, lexeme = .quoted text := by
  unfold quoted? at h
  split at h
  · simp only [Option.map_eq_some_iff, Prod.mk.injEq] at h
    obtain ⟨found, -, rfl, -⟩ := h
    exact ⟨_, rfl⟩
  · cases h

/-- What a scan of a text gives, each unit with the search that finds it. -/
inductive Scanned (c : Char) (cs : List Char) : Lexeme → List Char → List Char → Prop
  | identifier {name : String} {used rest : List Char}
      (h : word? (c :: cs) = some (.identifier name, used, rest)) :
      Scanned c cs (.identifier name) used rest
  | var {name : String} {used rest : List Char}
      (h : word? (c :: cs) = some (.var name, used, rest)) : Scanned c cs (.var name) used rest
  | number {digits : String} {used rest : List Char}
      (h : number? (c :: cs) = some (.number digits, used, rest)) :
      Scanned c cs (.number digits) used rest
  | quoted {text : String} {used rest : List Char}
      (h : quoted? (c :: cs) = some (.quoted text, used, rest)) :
      Scanned c cs (.quoted text) used rest
  | keyword {k : Keyword} {rest : List Char}
      (h : longest? Keyword.text Keyword.all (c :: cs) = some (k, rest)) :
      Scanned c cs (.keyword k) k.text.toList rest
  | punct {s : Punct} {rest : List Char}
      (h : longest? Punct.text Punct.all (c :: cs) = some (s, rest)) :
      Scanned c cs (.punct s) s.text.toList rest
  | stray : Scanned c cs (.stray c) [c] cs

theorem scanned_of_word? (h : word? (c :: cs) = some (lexeme, used, rest)) :
    Scanned c cs lexeme used rest := by
  obtain ⟨name, rfl⟩ | ⟨name, rfl⟩ := lexeme_of_word? h
  · exact .identifier h
  · exact .var h

theorem scanned_of_number? (h : number? (c :: cs) = some (lexeme, used, rest)) :
    Scanned c cs lexeme used rest := by
  obtain ⟨digits, rfl⟩ := lexeme_of_number? h
  exact .number h

theorem scanned_of_quoted? (h : quoted? (c :: cs) = some (lexeme, used, rest)) :
    Scanned c cs lexeme used rest := by
  obtain ⟨text, rfl⟩ := lexeme_of_quoted? h
  exact .quoted h

theorem scanned_of_keyword? (h : keyword? (c :: cs) = some (lexeme, used, rest)) :
    Scanned c cs lexeme used rest := by
  simp only [keyword?, Option.map_eq_some_iff, Prod.exists, Prod.mk.injEq] at h
  obtain ⟨word, after, hlongest, rfl, rfl, rfl⟩ := h
  exact .keyword hlongest

theorem scanned_of_punct? (h : punct? (c :: cs) = some (lexeme, used, rest)) :
    Scanned c cs lexeme used rest := by
  simp only [punct?, Option.map_eq_some_iff, Prod.exists, Prod.mk.injEq] at h
  obtain ⟨symbol, after, hlongest, rfl, rfl, rfl⟩ := h
  exact .punct hlongest

/-- The searches are made one after the other, and the first that finds something counts. -/
theorem scanned_of_scan (h : scan c cs = (lexeme, used, rest)) : Scanned c cs lexeme used rest := by
  have hfound : (word? (c :: cs) <|> number? (c :: cs) <|> quoted? (c :: cs) <|> keyword? (c :: cs)
      <|> punct? (c :: cs)) = some (lexeme, used, rest) ∨
        (Lexeme.stray c, [c], cs) = (lexeme, used, rest) := by
    rw [scan, Option.getD_eq_iff] at h
    exact h.imp id And.right
  rcases hfound with hfound | hstray
  · simp only [Option.orElse_eq_orElse, Option.orElse_eq_or, Option.or_eq_some_iff] at hfound
    rcases hfound with h | ⟨-, h | ⟨-, h | ⟨-, h | ⟨-, h⟩⟩⟩⟩
    · exact scanned_of_word? h
    · exact scanned_of_number? h
    · exact scanned_of_quoted? h
    · exact scanned_of_keyword? h
    · exact scanned_of_punct? h
  · cases hstray
    exact .stray

theorem word?_ne_nil (h : word? cs = some (lexeme, used, rest)) : used ≠ [] := by
  rintro rfl
  simp only [word?] at h
  split at h
  · rename_i d ds hletter
    have hused : cs.takeWhile isWordChar = [] := by split at h <;> simp_all
    rw [hused] at hletter
    cases hletter
  · split at h <;> simp_all

theorem number?_ne_nil (h : number? cs = some (lexeme, used, rest)) : used ≠ [] := by
  simp only [number?] at h
  split at h
  · cases h
  · rename_i hused
    cases h
    exact hused

theorem quoted?_ne_nil (h : quoted? cs = some (lexeme, used, rest)) : used ≠ [] := by
  unfold quoted? at h
  split at h
  · simp only [Option.map_eq_some_iff, Prod.mk.injEq] at h
    obtain ⟨found, -, -, rfl, -⟩ := h
    exact List.cons_ne_nil _ _
  · cases h

/-- Every token takes a character, and two dots take two. -/
theorem used_of_scan (h : scan c cs = (lexeme, used, rest)) :
    used ≠ [] ∧ (lexeme = .punct .dots → used = ['.', '.']) := by
  cases scanned_of_scan h with
  | identifier h | var h => exact ⟨word?_ne_nil h, nofun⟩
  | number h => exact ⟨number?_ne_nil h, nofun⟩
  | quoted h => exact ⟨quoted?_ne_nil h, nofun⟩
  | @keyword k => exact ⟨k.toList_text_ne_nil, nofun⟩
  | @punct s =>
    refine ⟨s.toList_text_ne_nil, fun hdots => ?_⟩
    cases hdots
    decide
  | stray => exact ⟨List.cons_ne_nil _ _, nofun⟩

end Scanning

theorem tokensFrom_eq_append (n : Nat) (p : Position) (cs : List Char) (done : List Token) :
    tokensFrom n p cs done = done.reverse ++ tokensFrom n p cs [] := by
  induction n generalizing p cs done with
  | zero => simp [tokensFrom]
  | succ n ih =>
    cases cs with
    | nil => simp [tokensFrom]
    | cons c cs =>
      simp only [tokensFrom]
      cases gap? (c :: cs) with
      | some found => exact ih _ _ _
      | none =>
        simp only
        rw [ih _ _ (_ :: done), ih _ _ [_]]
        simp

/-- The tokens from a position on stand behind it. -/
theorem tokensFrom_ascending (n : Nat) (p : Position) (cs : List Char) :
    p ≤ beginOf (tokensFrom n p cs []) ∧ Ascending (tokensFrom n p cs []) := by
  induction n generalizing p cs with
  | zero => exact ⟨le_refl p, .finish⟩
  | succ n ih =>
    cases cs with
    | nil => exact ⟨le_refl p, .finish⟩
    | cons c cs =>
      simp only [tokensFrom]
      cases gap? (c :: cs) with
      | some found =>
        obtain ⟨used, rest⟩ := found
        obtain ⟨hle, hascending⟩ := ih (advanceBy p used) rest
        exact ⟨(le_advanceBy p used).trans hle, hascending⟩
      | none =>
        rcases hscan : scan c cs with ⟨lexeme, used, rest⟩
        obtain ⟨hused, hdots⟩ := used_of_scan hscan
        obtain ⟨hle, hascending⟩ := ih (advanceBy p used) rest
        simp only
        rw [tokensFrom_eq_append, List.reverse_singleton, List.singleton_append]
        refine ⟨le_refl p, .token (lt_advanceBy p hused) hle ?_ hascending⟩
        intro he
        rw [hdots he]
        exact (p.advance '.').lt_advance '.'

theorem tokens_ascending (cs : List Char) : Ascending (tokens cs) :=
  (tokensFrom_ascending cs.length Position.start cs).2

end AspAtlas.Surface
