import AspAtlas.Surface.Program
/-!
What readers refuse at sight: units that no term, literal or statement starts with.
-/
namespace AspAtlas.Surface

/-- The units that a term may start with. -/
def Lexeme.startsTerm : Lexeme → Bool
  | .identifier _ | .var _ | .number _ | .quoted _ => true
  | .keyword word => word ∈ [Keyword.supremum, .sup, .infimum, .inf]
  | .punct symbol => symbol ∈ [Punct.minus, .opening, .bar]
  | .stray _ | .finish => false

/-- The units that a literal may start with. -/
def Lexeme.startsLiteral : Lexeme → Bool
  | .keyword word => word ∈ [Keyword.supremum, .sup, .infimum, .inf, .truth, .falsity]
  | lexeme => lexeme.startsTerm

variable {n : Nat} {t : Token} {ts : List Token}

theorem startsTerm_of_not_startsLiteral (h : t.lexeme.startsLiteral = false) :
    t.lexeme.startsTerm = false := by
  cases hl : t.lexeme with
  | keyword word => cases word <;> simp_all [Lexeme.startsLiteral, Lexeme.startsTerm]
  | _ => simp_all [Lexeme.startsLiteral]

theorem punct_eq_none {symbol : Punct} (h : t.lexeme ≠ .punct symbol) :
    punct symbol (t :: ts) = none := by
  obtain ⟨lexeme, begin, stop⟩ := t
  cases lexeme with
  | punct s =>
    have hne : s ≠ symbol := by
      intro he
      exact h (by rw [he])
    simp [punct, hne]
  | _ => rfl

theorem identifier_eq_none (h : ∀ text, t.lexeme ≠ .identifier text) :
    identifier (t :: ts) = none := by
  obtain ⟨lexeme, begin, stop⟩ := t
  cases lexeme with
  | identifier text => exact absurd rfl (h text)
  | _ => rfl

theorem simpleFactor_eq_none (h : t.lexeme.startsTerm = false) : simpleFactor (t :: ts) = none := by
  obtain ⟨lexeme, begin, stop⟩ := t
  cases lexeme with
  | keyword word => cases word <;> simp_all [simpleFactor, Lexeme.startsTerm]
  | _ => simp_all [simpleFactor, Lexeme.startsTerm]

theorem factor_eq_none (h : t.lexeme.startsTerm = false) : factor n (t :: ts) = none := by
  have hminus : t.lexeme ≠ .punct .minus := by
    intro he
    simp [he, Lexeme.startsTerm] at h
  have hopening : t.lexeme ≠ .punct .opening := by
    intro he
    simp [he, Lexeme.startsTerm] at h
  have hbar : t.lexeme ≠ .punct .bar := by
    intro he
    simp [he, Lexeme.startsTerm] at h
  have hname (text : String) : t.lexeme ≠ .identifier text := by
    intro he
    simp [he, Lexeme.startsTerm] at h
  cases n with
  | zero => rfl
  | succ n =>
    simp [factor, negationOf, tupleOf, absoluteOf, functionOf, punct_eq_none hminus,
      punct_eq_none hopening, punct_eq_none hbar, identifier_eq_none hname, simpleFactor_eq_none h]

theorem term_eq_none (h : t.lexeme.startsTerm = false) : term n (t :: ts) = none := by
  cases n with
  | zero => rfl
  | succ n => simp [term, chainOf, factor_eq_none h]

theorem negations_of_ne (h : t.lexeme ≠ .identifier "not") :
    negations (t :: ts) = (.none, t :: ts) := by
  have hnone : negator (t :: ts) = none := by
    obtain ⟨lexeme, begin, stop⟩ := t
    unfold negator
    split
    · simp_all
    · rfl
  simp [negations, hnone]

theorem literal_eq_none (h : t.lexeme.startsLiteral = false) : literal n (t :: ts) = none := by
  have hterm := startsTerm_of_not_startsLiteral h
  have hname (text : String) : t.lexeme ≠ .identifier text := by
    intro he
    simp [he, Lexeme.startsTerm] at hterm
  have hminus : t.lexeme ≠ .punct .minus := by
    intro he
    simp [he, Lexeme.startsTerm] at hterm
  have hboolean : boolean (t :: ts) = none := by
    obtain ⟨lexeme, begin, stop⟩ := t
    cases lexeme with
    | keyword word => cases word <;> simp_all [boolean, Lexeme.startsLiteral]
    | _ => rfl
  simp [literal, negations_of_ne (hname "not"), assertion, hboolean, comparison, term_eq_none hterm,
    atom, optional, punct_eq_none hminus, identifier_eq_none hname]

/-- No statement starts with a dot or two, or at the end of the text. -/
theorem statement_stuck
    (h : t.lexeme = .punct .dot ∨ t.lexeme = .punct .dots ∨ t.lexeme = .finish) :
    statement n (t :: ts) = none := by
  obtain ⟨lexeme, begin, stop⟩ := t
  simp only at h
  have hterm (m : Nat) : term m (⟨lexeme, begin, stop⟩ :: ts) = none :=
    term_eq_none (by rcases h with rfl | rfl | rfl <;> rfl)
  have hliteral (m : Nat) : literal m (⟨lexeme, begin, stop⟩ :: ts) = none :=
    literal_eq_none (by rcases h with rfl | rfl | rfl <;> rfl)
  rcases h with rfl | rfl | rfl <;>
    simp [statement, includeStatement, constantStatement, definedStatement, showAllStatement,
      showSignatureStatement, signatureStatement, showTermStatement, programStatement,
      externalStatement, optimizeStatement, weakStatement, headedRule, constraintRule,
      arrowBody, keyword, keywordWith, punct, head, choice, optional, leftBound, hterm,
      disjunction, conditional, hliteral]

/-- No statement starts with a dot. -/
theorem statement_dot (h : t.lexeme = .punct .dot) : statement n (t :: ts) = none :=
  statement_stuck (.inl h)

theorem statementsFrom_step {k : Nat} {done : List Statement} (ht : t.lexeme ≠ .finish) :
    statementsFrom n (k + 1) (t :: ts) done =
      match statement n (t :: ts) with
      | some (s, rest) => statementsFrom n k rest (s :: done)
      | none => none := by
  obtain ⟨lexeme, b, e⟩ := t
  cases lexeme with
  | finish => exact absurd rfl ht
  | _ => rfl

theorem statementsFrom_dot {k : Nat} {done : List Statement} (h : t.lexeme = .punct .dot) :
    statementsFrom n k (t :: ts) done = none := by
  cases k with
  | zero => rfl
  | succ k =>
    rw [statementsFrom_step (by simp [h]), statement_dot h]

end AspAtlas.Surface
