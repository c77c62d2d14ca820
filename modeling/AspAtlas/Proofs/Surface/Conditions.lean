import AspAtlas.Proofs.Surface.Alike
import AspAtlas.Proofs.Surface.Context
import AspAtlas.Proofs.Surface.Extent
/-!
Literals as conditions. A literal that can be a whole body can be a condition wherever one may
stand, unless its first token is a minus sign: the colon in front of a condition refuses that sign
even behind blanks and comments.
-/
namespace AspAtlas.Surface

variable {n : Nat} {t u : Token} {ts rest : List Token}

theorem punct_self {symbol : Punct} {b e : Position} :
    punct symbol (⟨.punct symbol, b, e⟩ :: ts) = some (e, ts) := by
  simp [punct]

theorem punctWith_eq_none {accept : Punct → Bool}
    (h : ∀ s, t.lexeme = .punct s → accept s = false) : punctWith accept (t :: ts) = none := by
  obtain ⟨lexeme, begin, stop⟩ := t
  cases lexeme with
  | punct s => simp [punctWith, h s rfl]
  | _ => rfl

theorem further_eq_nil {α : Type} {separator : Punct → Bool} {item : Reader α}
    (h : ∀ s, t.lexeme = .punct s → separator s = false) :
    further n separator item (t :: ts) = ([], t :: ts) := by
  cases n with
  | zero => rfl
  | succ n => simp [further, many, after, punctWith_eq_none h]

/-- The units that end an operand: no arguments and no operator follow. -/
def Lexeme.endsTerm (lexeme : Lexeme) : Prop :=
  ∀ s, lexeme = .punct s → s ≠ .opening ∧ s.isArithmetic = false ∧ s.isComparison = false

theorem argumentsOf_eq_none {term : Reader Term} (h : t.lexeme.endsTerm) :
    argumentsOf n term (t :: ts) = none := by
  have hopening : t.lexeme ≠ .punct .opening := fun he => (h _ he).1 rfl
  simp [argumentsOf, punct_eq_none hopening]

theorem many_operandOf_eq_nil {factor : Reader Factor} (h : t.lexeme.endsTerm) :
    many (operandOf factor) n (t :: ts) = ([], t :: ts) := by
  cases n with
  | zero => rfl
  | succ n => simp [many, operandOf, punctWith_eq_none fun s he => (h s he).2.1]

/-- A name on its own is a term. -/
theorem term_identifier (n : Nat) (name : String) (b e : Position) (ts : List Token)
    (h : t.lexeme.endsTerm) :
    ∃ found, term (n + 2) (⟨.identifier name, b, e⟩ :: t :: ts) = some (found, t :: ts) := by
  simp [term, chainOf, factor, negationOf, tupleOf, absoluteOf, functionOf, punct, identifier,
    argumentsOf_eq_none h, many_operandOf_eq_nil h]

/-- A number on its own is a term. -/
theorem term_number (n : Nat) (digits : String) (b e : Position) (t : Token) (ts : List Token)
    (h : t.lexeme.endsTerm) :
    ∃ span span', term (n + 2) (⟨.number digits, b, e⟩ :: t :: ts) =
      some (.chain span (.constant span' digits) [], t :: ts) := by
  simp [term, chainOf, factor, negationOf, tupleOf, absoluteOf, functionOf, punct, identifier,
    simpleFactor, many_operandOf_eq_nil h]

/-- A name on its own is a literal. -/
theorem literal_identifier (n : Nat) {name : String} (b e : Position) (t : Token) (ts : List Token)
    (hname : name ≠ "not") (h : t.lexeme.endsTerm) :
    ∃ span span', literal (n + 2) (⟨.identifier name, b, e⟩ :: t :: ts) =
      some (⟨span, .none, .symbolic ⟨span', false, name, none⟩⟩, t :: ts) := by
  obtain ⟨found, hterm⟩ := term_identifier n name b e ts h
  have hsign : negations (⟨.identifier name, b, e⟩ :: t :: ts) =
      (.none, ⟨.identifier name, b, e⟩ :: t :: ts) := negations_of_ne (by simpa using hname)
  simp [literal, hsign, assertion, boolean, comparison, hterm,
    punctWith_eq_none fun s he => (h s he).2.2, atom, optional, punct, identifier,
      argumentsOf_eq_none h]

/-- A name on its own is a bound, but starts no aggregate. -/
theorem leftBound_identifier (n : Nat) (name : String) (b e : Position) (t : Token)
    (ts : List Token) (h : t.lexeme.endsTerm) :
    ∃ bound, leftBound (n + 2) (⟨.identifier name, b, e⟩ :: t :: ts) = some (bound, t :: ts) := by
  obtain ⟨found, hterm⟩ := term_identifier n name b e ts h
  simp [leftBound, hterm, punctWith_eq_none fun s he => (h s he).2.2]

theorem aggregate_identifier (n : Nat) {name : String} {symbol : Punct} (b e b' e' : Position)
    (ts : List Token) (hname : name ≠ "not") (h : (Lexeme.punct symbol).endsTerm) :
    aggregate (n + 2) (⟨.identifier name, b, e⟩ :: ⟨.punct symbol, b', e'⟩ :: ts) = none := by
  obtain ⟨bound, hbound⟩ := leftBound_identifier n name b e ⟨.punct symbol, b', e'⟩ ts h
  have hsign : negations (⟨.identifier name, b, e⟩ :: ⟨.punct symbol, b', e'⟩ :: ts) =
      (.none, ⟨.identifier name, b, e⟩ :: ⟨.punct symbol, b', e'⟩ :: ts) :=
    negations_of_ne (by simpa using hname)
  simp [aggregate, hsign, optional, hbound, keywordWith]

theorem endsTerm_colon : (Lexeme.punct .colon).endsTerm := by
  rintro s hs
  cases hs
  decide

theorem endsTerm_dot : (Lexeme.punct .dot).endsTerm := by
  rintro s hs
  cases hs
  decide

/-- A statement that starts with a symbol is a rule or a weak constraint. -/
theorem statement_symbol {symbol : Punct} {b e : Position} (h : symbol ≠ .weakIf) :
    statement n (⟨.punct symbol, b, e⟩ :: ts) =
      (headedRule n (⟨.punct symbol, b, e⟩ :: ts) <|>
        constraintRule n (⟨.punct symbol, b, e⟩ :: ts)) := by
  simp [statement, includeStatement, constantStatement, definedStatement, signatureStatement,
    showAllStatement, showSignatureStatement, showTermStatement, programStatement,
    externalStatement, optimizeStatement, weakStatement, keyword, keywordWith, punct, h]

theorem statement_identifier {name : String} {b e : Position} :
    statement n (⟨.identifier name, b, e⟩ :: ts) =
      headedRule n (⟨.identifier name, b, e⟩ :: ts) := by
  simp [statement, includeStatement, constantStatement, definedStatement, signatureStatement,
    showAllStatement, showSignatureStatement, showTermStatement, programStatement,
    externalStatement, optimizeStatement, weakStatement, keyword, keywordWith, punct,
    constraintRule, arrowBody]

theorem statement_ifThen {b e : Position} :
    statement n (⟨.punct .ifThen, b, e⟩ :: ts) =
      constraintRule n (⟨.punct .ifThen, b, e⟩ :: ts) := by
  have hhead : headedRule n (⟨.punct .ifThen, b, e⟩ :: ts) = none := by
    have hterm (m : Nat) : term m (⟨.punct .ifThen, b, e⟩ :: ts) = none := term_eq_none rfl
    have hliteral (m : Nat) : literal m (⟨.punct .ifThen, b, e⟩ :: ts) = none := literal_eq_none rfl
    simp [headedRule, head, choice, optional, leftBound, hterm, punct, disjunction,
      conditional, hliteral]
  rw [statement_symbol (by decide), hhead]
  rfl

section Forms

/-- The literal of a name. -/
def nameLiteral (span span' : Span) (name : String) : Literal :=
  ⟨span, .none, .symbolic ⟨span', false, name, none⟩⟩

variable {cond : List Literal} {stop b₁ e₁ b₂ e₂ b₃ e₃ b₄ e₄ b₅ e₅ : Position} {left : List Token}

/-- A name with what was found of a condition behind it. -/
theorem conditional_identifier {name : String} (b₁ e₁ : Position) (hname : name ≠ "not")
    (hcond : condition? (n + 2) (⟨.punct .colon, b₂, e₂⟩ :: rest) = ((cond, stop), left)) :
    ∃ span span' span'', conditional (n + 2)
      (⟨.identifier name, b₁, e₁⟩ :: ⟨.punct .colon, b₂, e₂⟩ :: rest) =
      some (⟨span, nameLiteral span' span'' name, cond⟩, left) := by
  obtain ⟨span', span'', hliteral⟩ := literal_identifier n b₁ e₁ ⟨.punct .colon, b₂, e₂⟩ rest
    hname endsTerm_colon
  exact ⟨⟨b₁, stop⟩, span', span'', by simp [conditional, hliteral, hcond, nameLiteral, beginOf]⟩

theorem statement_constraint (b₁ e₁ b₂ e₂ : Position)
    (hcond : condition? (n + 2) (⟨.punct .colon, b₃, e₃⟩ :: rest) = ((cond, stop), u :: left))
    (hu : ∀ s, u.lexeme = .punct s → s ≠ .comma ∧ s ≠ .semicolon) :
    ∃ span span' span'', statement (n + 2)
        (⟨.punct .ifThen, b₁, e₁⟩ :: ⟨.identifier "a", b₂, e₂⟩ :: ⟨.punct .colon, b₃, e₃⟩ :: rest) =
      (endDot (u :: left)).map fun x =>
        (.rule ⟨b₁, x.1⟩ none [.conditional ⟨span, nameLiteral span' span'' "a", cond⟩], x.2) := by
  obtain ⟨span, span', span'', hconditional⟩ := conditional_identifier b₂ e₂
    (show "a" ≠ "not" by decide) hcond
  refine ⟨span, span', span'', ?_⟩
  have haggregate := aggregate_identifier n b₂ e₂ b₃ e₃ rest
    (show "a" ≠ "not" by decide) endsTerm_colon
  have hmore : further (n + 2) (fun s => s = .comma ∨ s = .semicolon) (bodyElement (n + 2))
      (u :: left) = ([], u :: left) := further_eq_nil fun s hs => by simp [hu s hs]
  have hbody : body (n + 2) (⟨.identifier "a", b₂, e₂⟩ :: ⟨.punct .colon, b₃, e₃⟩ :: rest) =
      some ([.conditional ⟨span, nameLiteral span' span'' "a", cond⟩], u :: left) := by
    simp only [Bool.decide_or] at hmore
    simp [body, bodyElement, haggregate, hconditional, hmore]
  rw [statement_ifThen]
  cases hdot : endDot (u :: left) with
  | none => simp [constraintRule, arrowBody, punct, optional, hbody, hdot]
  | some found => simp [constraintRule, arrowBody, punct, optional, hbody, hdot, beginOf]

/-- The elements of a choice with one name. -/
theorem semicolons_identifier (b₂ e₂ : Position)
    (hcond : condition? (n + 2) (⟨.punct .colon, b₃, e₃⟩ :: rest) = ((cond, stop), u :: left))
    (hu : u.lexeme ≠ .punct .semicolon) :
    ∃ span span' span'', semicolons (n + 2) (conditional (n + 2))
        (⟨.identifier "a", b₂, e₂⟩ :: ⟨.punct .colon, b₃, e₃⟩ :: rest) =
      ([⟨span, nameLiteral span' span'' "a", cond⟩], u :: left) := by
  obtain ⟨span, span', span'', hconditional⟩ := conditional_identifier b₂ e₂
    (show "a" ≠ "not" by decide) hcond
  have hmore : further (n + 2) (· = .semicolon) (conditional (n + 2)) (u :: left) =
      ([], u :: left) := by
    refine further_eq_nil fun s hs => ?_
    rw [decide_eq_false_iff_not]
    rintro rfl
    exact hu hs
  exact ⟨span, span', span'', by simp [semicolons, hconditional, hmore]⟩

theorem statement_openBrace (n : Nat) (b₁ e₁ : Position) (ts : List Token) :
    statement n (⟨.punct .openBrace, b₁, e₁⟩ :: ts) =
      (choice n (⟨.punct .openBrace, b₁, e₁⟩ :: ts)).bind fun x =>
        let (body, after) := optional (arrowBody n) x.2
        (endDot after).map fun y => (.rule ⟨b₁, y.1⟩ (some (.choice x.1)) (body.getD []), y.2) := by
  have hliteral : literal n (⟨.punct .openBrace, b₁, e₁⟩ :: ts) = none := literal_eq_none rfl
  have hconstraint : constraintRule n (⟨.punct .openBrace, b₁, e₁⟩ :: ts) = none := by
    simp [constraintRule, arrowBody, punct]
  have hdisjunction : disjunction n (⟨.punct .openBrace, b₁, e₁⟩ :: ts) = none := by
    simp [disjunction, conditional, hliteral]
  rw [statement_symbol (by decide), hconstraint]
  simp only [headedRule, head, hdisjunction]
  cases hchoice : choice n (⟨.punct .openBrace, b₁, e₁⟩ :: ts) with
  | none => rfl
  | some found =>
    cases hdot : endDot (optional (arrowBody n) found.2).2 <;> simp [hdot, beginOf]

theorem choice_identifier (b₁ e₁ b₂ e₂ : Position)
    (hcond : condition? (n + 2) (⟨.punct .colon, b₃, e₃⟩ :: rest) = ((cond, stop), u :: left))
    (hu : u.lexeme ≠ .punct .semicolon) :
    ∃ span span' span'', choice (n + 2)
        (⟨.punct .openBrace, b₁, e₁⟩ :: ⟨.identifier "a", b₂, e₂⟩ ::
          ⟨.punct .colon, b₃, e₃⟩ :: rest) =
      (punct .closeBrace (u :: left)).bind fun x =>
        let (right, after) := optional (rightBound (n + 2)) x.2
        some (⟨⟨b₁, boundEnd right after⟩, none,
          [⟨span, nameLiteral span' span'' "a", cond⟩], right⟩, after) := by
  obtain ⟨span, span', span'', hsemicolons⟩ := semicolons_identifier b₂ e₂ hcond hu
  have hterm : term (n + 2) (⟨.punct .openBrace, b₁, e₁⟩ :: ⟨.identifier "a", b₂, e₂⟩ ::
      ⟨.punct .colon, b₃, e₃⟩ :: rest) = none := term_eq_none rfl
  refine ⟨span, span', span'', ?_⟩
  cases hclose : punct .closeBrace (u :: left) <;>
    simp [choice, optional, leftBound, hterm, hsemicolons, hclose, beginOf, punct_self]

theorem statement_disjunction (b₂ e₂ : Position)
    (hcond : condition? (n + 2) (⟨.punct .colon, b₃, e₃⟩ :: rest) = ((cond, stop), u :: left))
    (hu : ∀ s, u.lexeme = .punct s → s ≠ .semicolon ∧ s ≠ .bar) :
    ∃ span span' span'' span₂, statement (n + 2)
        (⟨.identifier "a", b₂, e₂⟩ :: ⟨.punct .colon, b₃, e₃⟩ :: rest) =
      let (body, after) := optional (arrowBody (n + 2)) (u :: left)
      (endDot after).map fun y =>
        (.rule ⟨b₂, y.1⟩ (some (.disjunction span₂ ⟨span, nameLiteral span' span'' "a", cond⟩ []))
          (body.getD []), y.2) := by
  obtain ⟨span, span', span'', hconditional⟩ := conditional_identifier b₂ e₂
    (show "a" ≠ "not" by decide) hcond
  obtain ⟨bound, hbound⟩ :=
    leftBound_identifier n "a" b₂ e₂ ⟨.punct .colon, b₃, e₃⟩ rest endsTerm_colon
  have hchoice : choice (n + 2) (⟨.identifier "a", b₂, e₂⟩ :: ⟨.punct .colon, b₃, e₃⟩ ::
      rest) = none := by
    simp [choice, optional, hbound, punct]
  have hmore : further (n + 2) (fun s => s = .semicolon ∨ s = .bar) (conditional (n + 2))
      (u :: left) = ([], u :: left) := further_eq_nil fun s hs => by simp [hu s hs]
  simp only [Bool.decide_or] at hmore
  have hhead : head (n + 2) (⟨.identifier "a", b₂, e₂⟩ :: ⟨.punct .colon, b₃, e₃⟩ :: rest) =
      some (.disjunction ⟨b₂, beginOf (u :: left)⟩ ⟨span, nameLiteral span' span'' "a", cond⟩ [],
        u :: left) := by
    simp [head, hchoice, disjunction, hconditional, hmore, beginOf, endOf]
  refine ⟨span, span', span'', ⟨b₂, beginOf (u :: left)⟩, ?_⟩
  rw [statement_identifier]
  cases hdot : endDot (optional (arrowBody (n + 2)) (u :: left)).2 <;>
    simp [headedRule, hhead, hdot, beginOf]

/-- The elements of an aggregate over one number. -/
theorem semicolons_number (b₂ e₂ : Position)
    (hcond : condition? (n + 2) (⟨.punct .colon, b₃, e₃⟩ :: rest) = ((cond, stop), u :: left))
    (hu : u.lexeme ≠ .punct .semicolon) :
    ∃ span span' span'' span₂, semicolons (n + 2) (aggregateElement (n + 2))
        (⟨.number "1", b₂, e₂⟩ :: ⟨.punct .colon, b₃, e₃⟩ :: rest) =
      ([⟨span, some (.list span₂ (.chain span' (.constant span'' "1") []) []), cond⟩],
        u :: left) := by
  obtain ⟨span', span'', hterm⟩ :=
    term_number n "1" b₂ e₂ ⟨.punct .colon, b₃, e₃⟩ rest endsTerm_colon
  have hcomma : further (n + 2) (· = .comma) (term (n + 2)) (⟨.punct .colon, b₃, e₃⟩ :: rest) =
      ([], ⟨.punct .colon, b₃, e₃⟩ :: rest) := further_eq_nil (by simp)
  have hmore : further (n + 2) (· = .semicolon) (aggregateElement (n + 2)) (u :: left) =
      ([], u :: left) := by
    refine further_eq_nil fun s hs => ?_
    rw [decide_eq_false_iff_not]
    rintro rfl
    exact hu hs
  have hterms : termsOf (n + 2) (term (n + 2))
      (⟨.number "1", b₂, e₂⟩ :: ⟨.punct .colon, b₃, e₃⟩ :: rest) =
        some (.list ⟨b₂, b₃⟩ (.chain span' (.constant span'' "1") []) [],
          ⟨.punct .colon, b₃, e₃⟩ :: rest) := by
    simp [termsOf, hterm, hcomma, beginOf, endOf]
  exact ⟨⟨b₂, stop⟩, span', span'', ⟨b₂, b₃⟩, by
    simp [semicolons, aggregateElement, hterms, hcond, hmore, beginOf]⟩

theorem statement_count (b₁ e₁ b₂ e₂ b₃ e₃ b₄ e₄ : Position)
    (hcond : condition? (n + 2) (⟨.punct .colon, b₅, e₅⟩ :: rest) = ((cond, stop), u :: left))
    (hu : u.lexeme ≠ .punct .semicolon) :
    ∃ span span' span'' span₂, statement (n + 2)
        (⟨.punct .ifThen, b₁, e₁⟩ :: ⟨.keyword .count, b₂, e₂⟩ :: ⟨.punct .openBrace, b₃, e₃⟩ ::
          ⟨.number "1", b₄, e₄⟩ :: ⟨.punct .colon, b₅, e₅⟩ :: rest) =
      (punct .closeBrace (u :: left)).bind fun x =>
        let (right, after) := optional (rightBound (n + 2)) x.2
        let (more, after') := further (n + 2) (fun s => s = .comma ∨ s = .semicolon)
          (bodyElement (n + 2)) after
        (endDot after').map fun y =>
          (.rule ⟨b₁, y.1⟩ none (.aggregate ⟨⟨b₂, boundEnd right after⟩, .none, none, .count,
              [⟨span, some (.list span₂ (.chain span' (.constant span'' "1") []) []), cond⟩],
              right⟩ :: more), y.2) := by
  obtain ⟨span, span', span'', span₂, hsemicolons⟩ := semicolons_number b₄ e₄ hcond hu
  refine ⟨span, span', span'', span₂, ?_⟩
  have hterm (m : Nat) (ts : List Token) : term m (⟨.keyword .count, b₂, e₂⟩ :: ts) = none :=
    term_eq_none rfl
  have hliteral (m : Nat) (ts : List Token) : literal m (⟨.keyword .count, b₂, e₂⟩ :: ts) = none :=
    literal_eq_none rfl
  have hsign (ts : List Token) : negations (⟨.keyword .count, b₂, e₂⟩ :: ts) =
      (.none, ⟨.keyword .count, b₂, e₂⟩ :: ts) := negations_of_ne (by simp)
  have haggregate : aggregate (n + 2) (⟨.keyword .count, b₂, e₂⟩ :: ⟨.punct .openBrace, b₃, e₃⟩ ::
      ⟨.number "1", b₄, e₄⟩ :: ⟨.punct .colon, b₅, e₅⟩ :: rest) =
      (punct .closeBrace (u :: left)).bind fun x =>
        let (right, after) := optional (rightBound (n + 2)) x.2
        some (⟨⟨b₂, boundEnd right after⟩, .none, none, .count,
          [⟨span, some (.list span₂ (.chain span' (.constant span'' "1") []) []), cond⟩],
          right⟩, after) := by
    cases hclose : punct .closeBrace (u :: left) <;>
      simp [aggregate, hsign, optional, leftBound, hterm, keywordWith, isAggregateFunction,
        punct_self, hsemicolons, hclose, beginOf]
  rw [statement_ifThen]
  cases hclose : punct .closeBrace (u :: left) with
  | none =>
    rw [hclose, Option.bind_none] at haggregate
    simp [constraintRule, arrowBody, punct_self, optional, body, bodyElement, haggregate,
      conditional, hliteral, endDot]
  | some found =>
    rcases hright : optional (rightBound (n + 2)) found.2 with ⟨right, after⟩
    rcases hmore : further (n + 2) (fun s => s = .comma ∨ s = .semicolon)
      (bodyElement (n + 2)) after with ⟨more, after'⟩
    simp only [hclose, Option.bind_some, hright] at haggregate
    simp only [Option.bind_some, hright, hmore]
    simp only [Bool.decide_or] at hmore
    have hbody : body (n + 2) (⟨.keyword .count, b₂, e₂⟩ :: ⟨.punct .openBrace, b₃, e₃⟩ ::
        ⟨.number "1", b₄, e₄⟩ :: ⟨.punct .colon, b₅, e₅⟩ :: rest) =
        some (.aggregate ⟨⟨b₂, boundEnd right after⟩, .none, none, .count,
          [⟨span, some (.list span₂ (.chain span' (.constant span'' "1") []) []), cond⟩],
          right⟩ :: more, after') := by
      simp [body, bodyElement, haggregate, hmore]
    cases hdot : endDot after' <;>
      simp [constraintRule, arrowBody, punct_self, optional, hbody, hdot, beginOf]

end Forms

theorem eq_of_many_eq_nil {α : Type} {item : Reader α} (h : many item n ts = ([], rest)) :
    rest = ts := by
  cases n with
  | zero =>
    cases h
    rfl
  | succ n =>
    rcases many_steps h with ⟨a, left, others, -, -, hall⟩ | ⟨-, -, rfl⟩
    · cases hall
    · rfl

theorem conditional_eq_literal {l : Literal} {span : Span}
    (h : conditional n ts = some (⟨span, l, []⟩, rest)) : literal n ts = some (l, rest) := by
  obtain ⟨first, left, found, stop, hfirst, hcondition, hall⟩ := conditional_steps h
  cases hall
  rcases condition?_steps hcondition with hcondition | ⟨-, -, -, rfl⟩
  · obtain ⟨_, ts₁, first, ts₂, more, -, -, -, hall, -⟩ := condition_steps hcondition
    cases hall
  · exact hfirst

/-- A body of one plain literal is that literal. -/
theorem body_eq_literal {l : Literal} {span : Span}
    (h : body n ts = some ([.conditional ⟨span, l, []⟩], rest)) :
    literal n ts = some (l, rest) := by
  obtain ⟨first, left, more, hfirst, hmore, hall⟩ := body_steps h
  cases hall
  obtain rfl := eq_of_many_eq_nil hmore
  rcases bodyElement_steps hfirst with ⟨a, -, ha⟩ | ⟨c, hconditional, hc⟩
  · cases ha
  · cases hc
    exact conditional_eq_literal hconditional

theorem constraintRule_eq_literal {l : Literal} {span span' : Span} {b e : Position}
    (h : constraintRule n (⟨.punct .ifThen, b, e⟩ :: ts) =
      some (.rule span none [.conditional ⟨span', l, []⟩], rest)) :
    ∃ mid, literal n ts = some (l, mid) ∧ endDot mid = some (span.stop, rest) := by
  obtain ⟨found, left, stop, hbody, hdot, hall⟩ := constraintRule_steps h
  cases hall
  obtain ⟨arrow, mid, written, harrow, hwritten, hfound⟩ := arrowBody_steps hbody
  obtain ⟨begin, hmid⟩ := punct_steps harrow
  cases hmid
  rcases optional_steps hwritten with ⟨found, hread, rfl⟩ | ⟨-, rfl, -⟩
  · cases hfound
    exact ⟨left, body_eq_literal hread, hdot⟩
  · cases hfound

/-- A text of one statement. -/
theorem ofTokens?_singleton {s : Statement} {final : Token} (ht : t.lexeme ≠ .finish)
    (hfinal : final.lexeme = .finish)
    (h : statement (budget (t :: ts).length) (t :: ts) = some (s, final :: rest)) :
    ofTokens? (t :: ts) = some [s] := by
  obtain ⟨lexeme, b, e⟩ := final
  simp only at hfinal
  subst hfinal
  rw [ofTokens?, statementsFrom_step ht, h]
  simp [statementsFrom]

/-- A statement up to the end of a text. -/
theorem ofTokens?_of_statement {s : Statement} {b e : Position} (ht : t.lexeme ≠ .finish)
    (h : statement (budget (t :: ts).length) (t :: ts) = some (s, [⟨.finish, b, e⟩])) :
    ofTokens? (t :: ts) = some [s] := by
  have hfinal : (⟨.finish, b, e⟩ : Token).lexeme = .finish := rfl
  exact ofTokens?_singleton ht hfinal h

theorem ofTokens?_eq_none (ht : t.lexeme ≠ .finish)
    (h : statement (budget (t :: ts).length) (t :: ts) = none) : ofTokens? (t :: ts) = none := by
  rw [ofTokens?, statementsFrom_step ht, h]

theorem of_statementsFrom_nil {k : Nat} (h : statementsFrom n k ts [] = some []) :
    ∃ final rest, ts = final :: rest ∧ final.lexeme = .finish := by
  cases k with
  | zero => cases h
  | succ k =>
    rcases statementsFrom_steps h with ⟨begin, stop, more, rfl, -⟩ | ⟨s, left, more, -, -, hall⟩
    · exact ⟨_, _, rfl, rfl⟩
    · cases hall

theorem statement_of_ofTokens? {s : Statement} (h : ofTokens? ts = some [s]) :
    ∃ final rest, final.lexeme = .finish ∧
    statement (budget ts.length) ts = some (s, final :: rest) := by
  rcases statementsFrom_steps h with
    ⟨begin, stop, more, -, hall⟩ | ⟨first, rest, more, hfirst, hmore, hall⟩
  · cases hall
  · obtain ⟨rfl, rfl⟩ := List.cons.inj hall
    obtain ⟨final, left, rfl, hfinal⟩ := of_statementsFrom_nil hmore
    exact ⟨final, left, hfinal, hfirst⟩

section Texts

variable {tail tail' us left : List Token}

/-- Tokens with the same units in front of two tails are alike. -/
theorem alike_of_units {xs ys : List Token} (h : ys.map Token.lexeme = xs.map Token.lexeme) :
    Alike tail tail' (xs ++ tail) (ys ++ tail') := by
  induction xs generalizing ys with
  | nil =>
    obtain rfl : ys = [] := by simpa using h
    exact .tail
  | cons x xs ih =>
    cases ys with
    | nil => cases h
    | cons y ys =>
      simp only [List.map_cons, List.cons.injEq] at h
      exact .token h.1.symm (ih h.2)

theorem Alike.length_le (h : Alike tail tail' ts us) : tail.length ≤ ts.length := by
  induction h with
  | tail => exact Nat.le_refl _
  | token _ _ ih => exact Nat.le_succ_of_le ih

/-- What is alike to one of the tails is the other. -/
theorem Alike.eq_tail (h : Alike tail tail' ts us) (hlength : ts.length ≤ tail.length) :
    us = tail' := by
  cases h with
  | tail => rfl
  | token _ h =>
    have hle := h.length_le
    simp only [List.length_cons] at hlength
    omega

variable {file : Path} {c : String} {span span' : Span} {l : Literal}

/-- A unit in front of a blank. -/
theorem lex_unit_blank {p : Position} {d : Char} {ds cs : List Char} (lexeme : Lexeme)
    (hgap : gap? (d :: (ds ++ ' ' :: cs)) = none)
    (h : scan d (ds ++ ' ' :: cs) = (lexeme, d :: ds, ' ' :: cs)) :
    lex p (d :: (ds ++ ' ' :: cs)) =
      ⟨lexeme, p, advanceBy p (d :: ds)⟩ :: lex (advanceBy (advanceBy p (d :: ds)) [' ']) cs := by
  have hblank : gap? (' ' :: cs) = some ([' '], cs) := rfl
  rw [lex_scan p hgap h, lex_gap (advanceBy p (d :: ds)) hblank]

/-- Whether the first token of a text is a minus sign. -/
def StartsWithMinus (c : String) : Prop :=
  (tokens c.toList).head?.map Token.lexeme = some (.punct .minus)

instance : Decidable (StartsWithMinus c) :=
  inferInstanceAs (Decidable ((tokens c.toList).head?.map Token.lexeme = some (.punct .minus)))

/-- A text that is a body of one plain literal, and has no part in the dot behind it. -/
structure IsPlainBody (c : String) (l : Literal) : Prop where
  reads : ∃ span span', parse? (":- " ++ c ++ ".") =
    some [.rule span none [.conditional ⟨span', l, []⟩]] ∧
    span.stop = advanceBy Position.start (":- " ++ c ++ ".").toList

theorem advanceBy_eq_imp {p : Position} {xs ys : List Char}
    (h : advanceBy p (xs ++ ys) = advanceBy p xs) : ys = [] := by
  by_contra hys
  rw [advanceBy_append] at h
  exact advanceBy_ne hys h

/-- The units of a plain body are the same in all surroundings. -/
theorem IsPlainBody.units (h : IsPlainBody c l) :
    ∃ n xs t final, literal n (xs ++ [t, final]) = some (l, [t, final]) ∧ t.lexeme = .punct .dot ∧
      2 * (xs.length + 3) ≤ n ∧
      ∀ post, Separate post → ∀ q, ∃ ys,
        lex q (c.toList ++ post) = ys ++ lex (advanceBy q c.toList) post ∧
          ys.map Token.lexeme = xs.map Token.lexeme := by
  obtain ⟨span, span', hparse, hend⟩ := h.reads
  have htext : (":- " ++ c ++ ".").toList = ':' :: (['-'] ++ ' ' :: (c.toList ++ ['.'])) := by
    simp [String.toList_append]
  have htokens : tokens (":- " ++ c ++ ".").toList =
      ⟨.punct .ifThen, Position.start, ⟨1, 3⟩⟩ :: lex ⟨1, 4⟩ (c.toList ++ ['.']) := by
    rw [htext, tokens_eq_lex, lex_unit_blank (.punct .ifThen) rfl rfl]
    rfl
  rw [parse?, htokens] at hparse
  obtain ⟨final, rest, hfinal, hstatement⟩ := statement_of_ofTokens? hparse
  rw [statement_ifThen] at hstatement
  obtain ⟨mid, hliteral, hdot⟩ := constraintRule_eq_literal hstatement
  rcases endDot_cases hdot with ⟨t, rfl, ht, hstop⟩ | ⟨t, more, hsplit, ht⟩
  · obtain ⟨u, used, hused⟩ := literal_consumes hliteral
    have hfinished := lex_finished ⟨1, 4⟩ (c.toList ++ ['.'])
    have hrest : rest = [] := by
      have hlast : ((u :: used) ++ [t]).getLast? = some t := List.getLast?_concat
      have hsplit : u :: used ++ t :: final :: rest = (u :: used ++ [t]) ++ final :: rest := by simp
      rw [hused, hsplit] at hfinished
      exact (hfinished.of_append hlast (by simp [ht])).tail_eq_nil hfinal
    subst hrest
    have hbegin : t.begin = advanceBy ⟨1, 4⟩ c.toList := by
      have hmem : t ∈ lex ⟨1, 4⟩ (c.toList ++ ['.']) := by simp [hused]
      obtain ⟨before, taken, behind, hchars, hbegin, hplace, htaken⟩ := mem_lex hmem (by simp [ht])
      have hone : taken = ['.'] := (htaken _ ht).trans (by decide)
      have hall : advanceBy ⟨1, 4⟩ (before ++ taken ++ behind) =
          advanceBy ⟨1, 4⟩ (before ++ taken) := by
        rw [← hchars, ← hplace, hstop, hend, htext]
        rfl
      have hnone := advanceBy_eq_imp hall
      subst hone hnone
      rw [List.append_nil] at hchars
      rw [hbegin, List.append_cancel_right hchars]
    refine ⟨_, u :: used, t, final, by rwa [← hused], ht, ?_, ?_⟩
    · simp [hused, budget]
    · intro post hpost q
      exact lex_in_context hpost ⟨1, 4⟩ c.toList (u :: used) t final hused hbegin q
  · simp only [List.cons.injEq] at hsplit
    rw [hsplit.1, ht] at hfinal
    cases hfinal

/-- What stands behind a plain body in its surroundings: nothing that a literal looks at or that
goes on with a condition. -/
structure Follows (post : List Char) : Prop where
  separate : Separate post
  inert : ∀ p, Inert (lex p post)

theorem separator_colon {b e : Position} (hminus : t.lexeme ≠ .punct .minus)
    (htilde : t.lexeme ≠ .stray '~') :
    separator (⟨.punct .colon, b, e⟩ :: t :: ts) = some ((), t :: ts) := by
  simp only [separator, punct_self, Option.bind_eq_bind, Option.bind_some]
  split
  · rename_i he
    cases he
    exact absurd rfl hminus
  · rename_i he
    cases he
    exact absurd rfl htilde
  · rfl

theorem separator_minus {b e : Position} (hminus : t.lexeme = .punct .minus) :
    separator (⟨.punct .colon, b, e⟩ :: t :: ts) = none := by
  obtain ⟨lexeme, begin, stop⟩ := t
  simp only at hminus
  subst hminus
  simp [separator, punct_self]

theorem condition?_eq_nil (h : separator ts = none) :
    Surface.condition? n ts = (([], beginOf ts), ts) := by
  simp [Surface.condition?, condition, h]

theorem condition?_singleton {l : Literal} (hseparator : separator ts = some ((), us))
    (hliteral : literal n us = some (l, t :: rest)) (ht : t.lexeme ≠ .punct .comma) :
    ∃ stop, Surface.condition? n ts = (([l], stop), t :: rest) := by
  have hmore : further n (· = .comma) (literal n) (t :: rest) = ([], t :: rest) := by
    refine further_eq_nil fun s hs => ?_
    rw [decide_eq_false_iff_not]
    rintro rfl
    exact ht hs
  simp [Surface.condition?, condition, hseparator, hliteral, hmore]

/-- Units that are read as a literal in front of some tokens are read as one in front of others, if
no part of a literal takes the first of these or of those. -/
theorem literal_of_units {xs ys : List Token} {m : Nat}
    (hliteral : literal n (xs ++ tail) = some (l, tail))
    (htail : Inert tail) (htail' : Inert tail') (hunits : ys.map Token.lexeme = xs.map Token.lexeme)
    (hn : 2 * ((xs ++ tail).length + 1) ≤ n) (hm : 2 * ((ys ++ tail').length + 1) ≤ m) :
    ∃ l', literal m (ys ++ tail') = some (l', tail') ∧ LiteralsAgree file l l' := by
  have hread : Agree tail tail' (LiteralsAgree file) (xs ++ tail) (ys ++ tail')
      (literal n (xs ++ tail)) (literal m (ys ++ tail')) :=
    literal_steady htail htail' hn hm (alike_of_units hunits) (Nat.lt_succ_self _)
      (Nat.lt_succ_self _)
  rw [hliteral] at hread
  generalize literal m (ys ++ tail') = found at hread
  cases hread with
  | @some _ l' _ left hagree hrest _ _ =>
    obtain rfl := hrest.eq_tail (Nat.le_refl _)
    exact ⟨l', rfl, hagree⟩

/-- Behind a colon a plain body is found as a condition, unless its first token is a minus sign. -/
theorem IsPlainBody.condition? (h : IsPlainBody c l) (file : Path) {post : List Char}
    (hpost : Follows post) (q b e : Position) :
    ∃ ys, lex q (c.toList ++ post) = ys ++ lex (advanceBy q c.toList) post ∧
      ∀ m, 2 * (lex q (c.toList ++ post)).length + 2 ≤ m →
        (¬ StartsWithMinus c → ∃ l' stop,
          condition? m (⟨.punct .colon, b, e⟩ :: lex q (c.toList ++ post)) =
            (([l'], stop), lex (advanceBy q c.toList) post) ∧ LiteralsAgree file l l') ∧
        (StartsWithMinus c → condition? m (⟨.punct .colon, b, e⟩ :: lex q (c.toList ++ post)) =
          (([], b), ⟨.punct .colon, b, e⟩ :: lex q (c.toList ++ post))) := by
  obtain ⟨n, xs, t, final, hliteral, ht, hn, hcontext⟩ := h.units
  obtain ⟨ys, hys, hunits⟩ := hcontext post hpost.separate q
  obtain ⟨zs, hzs, hunits'⟩ := hcontext [] separate_nil Position.start
  obtain ⟨x, xs, rfl⟩ : ∃ x more, xs = x :: more := List.exists_cons_of_ne_nil <| by
    rintro rfl
    have hlt := (literal_consumes hliteral).length_lt
    simp at hlt
  obtain ⟨y, ys, rfl, hy, -⟩ := List.map_eq_cons_iff.mp hunits
  obtain ⟨z, zs, rfl, hz, -⟩ := List.map_eq_cons_iff.mp hunits'
  refine ⟨_, hys, ?_⟩
  intro m hm
  have hfirst : StartsWithMinus c ↔ y.lexeme = .punct .minus := by
    rw [List.append_nil] at hzs
    simp [StartsWithMinus, tokens_eq_lex, hzs, hy, hz]
  obtain ⟨v, more, hv⟩ := List.exists_cons_of_ne_nil (lex_ne_nil (advanceBy q c.toList) post)
  have hinert := hpost.inert (advanceBy q c.toList)
  rw [hys, hfirst]
  rw [hys] at hm
  rw [hv] at hinert hm ⊢
  constructor
  · intro hminus
    have htilde : y.lexeme ≠ .stray '~' := by
      intro he
      have hnone : literal n (x :: (xs ++ [t, final])) = none :=
        literal_eq_none (by rw [← hy, he]; rfl)
      rw [← List.cons_append, hliteral] at hnone
      cases hnone
    have hcomma : v.lexeme ≠ .punct .comma := by
      intro he
      have hstop := hinert v rfl
      rw [he] at hstop
      cases hstop
    have htail : Inert [t, final] := by
      intro s hs
      cases hs
      rw [ht]
      rfl
    obtain ⟨l', hread, hagree⟩ :=
      literal_of_units hliteral htail hinert hunits (by simp at hn ⊢; omega) (by omega)
    obtain ⟨stop, hcondition⟩ := condition?_singleton (separator_colon hminus htilde) hread hcomma
    exact ⟨l', stop, hcondition, hagree⟩
  · intro hminus
    exact condition?_eq_nil (separator_minus hminus)

end Texts

section Trees

/-- A childless node without a place. -/
def bare (kind : NodeKind) : Node := { kind, location := default }

/-- The tree of a name as a literal. -/
def nameTree (name : String) : Node :=
  (bare .literal).withNode .atom ((bare .symbolicAtom).withNode .symbol
    (({ bare .function with name := some name } : Node)
      |>.withSequence .arguments []
      |>.withSequence .pool []))

/-- The tree of a name under one condition. -/
def conditionTree (condition : Node) : Node :=
  (bare .conditionalLiteral)
    |>.withNode .literal (nameTree "a")
    |>.withSequence .condition [condition]

/-- The tree of a count of one number under one condition, which is to be positive. -/
def countTree (condition : Node) : Node :=
  let element : Node := (bare .bodyAggregateElement)
    |>.withSequence .terms [{ bare .symbolicTerm with name := some "1" }]
    |>.withSequence .condition [condition]
  let guard : Node := ({ bare .guard with operator := some ">" } : Node).withNode .term
    { bare .symbolicTerm with name := some "0" }
  (bare .literal).withNode .atom
    (({ bare .bodyAggregate with operator := some "count" } : Node)
      |>.withSequence .elements [element]
      |>.withNode .rightGuard guard)

/-- The tree of a rule. -/
def ruleTree (head : Node) (body : List Node) : Node :=
  (bare .rule)
    |>.withNode .head head
    |>.withSequence .body body

/-- The head of constraints. -/
def falseTree : Node := { bare .booleanConstant with name := some "false" }

/-- Whether a text is one statement with a given tree up to locations. -/
def LowersTo (file : Path) (text : String) (tree : Node) : Prop :=
  ∃ node, parseItems file text = .ok [.statement node] ∧ node.placeless = tree

variable {file : Path} {text : String} {tree : Node} {s : Statement} {node : Node}

theorem placeless_nameLiteral (span span' : Span) (name : String) :
    ((nameLiteral span span' name).lower file).placeless = nameTree name := by
  simp [nameLiteral, Literal.lower, Assertion.lower, Atom.lower, applied, Span.node, Negations.sign,
    nameTree, bare]

theorem placeless_conditional (span span' span'' : Span) (l : Literal) :
    (Conditional.lower file ⟨span, nameLiteral span' span'' "a", [l]⟩).placeless =
      conditionTree (l.lower file).placeless := by
  simp [Conditional.lower, lowerCondition, placeless_nameLiteral, conditionTree, bare]

theorem lowersTo_of_parse? (h : parse? text = some [s])
    (hlower : s.lower file = .ok [.statement node])
    (htree : node.placeless = tree) : LowersTo file text tree := by
  have hprogram : lowerProgram file [s] = .ok [.statement node] := by
    rw [lowerProgram_cons, hlower]
    rfl
  exact ⟨node, by rw [parseItems, h]; simp only [hprogram], htree⟩

/-- A statement with a place for a condition, and its tree for each tree that may stand there. -/
structure Surrounding where
  before : String
  behind : String
  tree : Node → Node

/-- The statement with a text in its place for a condition. -/
def Surrounding.fill (place : Surrounding) (c : String) : String :=
  place.before ++ c ++ place.behind

def inConstraint : Surrounding where
  before := ":- a : "
  behind := "."
  tree condition := ruleTree falseTree [conditionTree condition]

def inChoice : Surrounding where
  before := "\x7b a : "
  behind := " \x7d."
  tree condition := ruleTree ((bare .aggregate).withSequence .elements [conditionTree condition]) []

def inDisjunction : Surrounding where
  before := "a : "
  behind := " :- b."
  tree condition :=
    ruleTree ((bare .disjunction).withSequence .elements [conditionTree condition]) [nameTree "b"]

def inCount : Surrounding where
  before := ":- #count \x7b 1 : "
  behind := " \x7d > 0."
  tree condition := ruleTree falseTree [countTree condition]

/-- One statement for each kind of place for a condition. -/
def surroundings : List Surrounding := [inConstraint, inChoice, inDisjunction, inCount]

/-- A text as a condition: taken as the only one, unless its first token is a minus sign. -/
def Surrounding.Settles (place : Surrounding) (file : Path) (c : String) (l : Literal) : Prop :=
  (¬ StartsWithMinus c → LowersTo file (place.fill c) (place.tree (l.lower file).placeless)) ∧
    (StartsWithMinus c → parse? (place.fill c) = none)

end Trees

section Main

variable {file : Path} {c : String} {l : Literal}

theorem follows_dot : Follows inConstraint.behind.toList where
  separate := separate_dot
  inert p := by
    intro t ht
    cases ht
    rfl

theorem follows_brace : Follows inChoice.behind.toList where
  separate := separate_blank (by decide) (by decide)
  inert p := by
    intro t ht
    cases ht
    rfl

theorem follows_bound : Follows inCount.behind.toList where
  separate := separate_blank (by decide) (by decide)
  inert p := by
    intro t ht
    cases ht
    rfl

theorem follows_arrow : Follows inDisjunction.behind.toList where
  separate := separate_blank (by decide) (by decide)
  inert p := by
    intro t ht
    cases ht
    rfl

theorem lex_arrow (p : Position) : ∃ b₁ e₁ b₂ e₂ b₃ e₃ b₄ e₄, lex p inDisjunction.behind.toList =
    [⟨.punct .ifThen, b₁, e₁⟩, ⟨.identifier "b", b₂, e₂⟩, ⟨.punct .dot, b₃, e₃⟩,
      ⟨.finish, b₄, e₄⟩] :=
  ⟨_, _, _, _, _, _, _, _, rfl⟩

theorem lex_bound (p : Position) : ∃ b₁ e₁ b₂ e₂ b₃ e₃ b₄ e₄ b₅ e₅, lex p inCount.behind.toList =
    [⟨.punct .closeBrace, b₁, e₁⟩, ⟨.punct .greater, b₂, e₂⟩, ⟨.number "0", b₃, e₃⟩,
      ⟨.punct .dot, b₄, e₄⟩, ⟨.finish, b₅, e₅⟩] :=
  ⟨_, _, _, _, _, _, _, _, _, _, rfl⟩

/-- A plain body in a place for a condition makes the statement around it complete, or breaks it if
its first token is a minus sign. -/
theorem IsPlainBody.settles {place : Surrounding} (h : IsPlainBody c l)
    (hpost : Follows place.behind.toList) {b e q : Position} {front : List Token}
    (htokens : tokens (place.fill c).toList =
      t :: (front ++ ⟨.punct .colon, b, e⟩ :: lex q (c.toList ++ place.behind.toList)))
    (ht : t.lexeme ≠ .finish)
    (hreads : ∀ n rest l' stop p, Surface.condition? (n + 2) (⟨.punct .colon, b, e⟩ :: rest) =
        (([l'], stop), lex p place.behind.toList) →
      ∃ s node final left,
        statement (n + 2) (t :: (front ++ ⟨.punct .colon, b, e⟩ :: rest)) =
          some (s, final :: left) ∧ final.lexeme = .finish ∧ s.lower file = .ok [.statement node] ∧
          node.placeless = place.tree (l'.lower file).placeless)
    (hrefuses : ∀ n rest, Surface.condition? (n + 2) (⟨.punct .colon, b, e⟩ :: rest) =
        (([], b), ⟨.punct .colon, b, e⟩ :: rest) →
      statement (n + 2) (t :: (front ++ ⟨.punct .colon, b, e⟩ :: rest)) = none) :
    place.Settles file c l := by
  obtain ⟨ys, hys, hfound⟩ := h.condition? file hpost q b e
  have hbudget : 2 * (lex q (c.toList ++ place.behind.toList)).length + 2 ≤
      2 * (t :: (front ++ ⟨.punct .colon, b, e⟩ ::
        lex q (c.toList ++ place.behind.toList))).length + 2 := by
    simp only [List.length_cons, List.length_append]
    omega
  obtain ⟨hplain, hminus⟩ := hfound _ hbudget
  constructor
  · intro hc
    obtain ⟨l', stop, hcondition, hagree⟩ := hplain hc
    obtain ⟨s, node, final, left, hstatement, hfinal, hlower, htree⟩ :=
      hreads _ _ l' stop _ hcondition
    have hparse : parse? (place.fill c) = some [s] := by
      rw [parse?, htokens]
      exact ofTokens?_singleton ht hfinal hstatement
    refine lowersTo_of_parse? hparse hlower ?_
    rw [htree, hagree]
  · intro hc
    rw [parse?, htokens]
    exact ofTokens?_eq_none ht (hrefuses _ _ (hminus hc))

theorem IsPlainBody.in_constraint (h : IsPlainBody c l) : inConstraint.Settles file c l := by
  have htext : (inConstraint.fill c).toList =
      ':' :: (['-'] ++ ' ' :: 'a' :: ([] ++ ' ' :: ':' :: ([] ++ ' ' :: (c.toList ++ ['.'])))) := by
    simp [Surrounding.fill, inConstraint, String.toList_append]
  have htokens : tokens (inConstraint.fill c).toList = ⟨.punct .ifThen, ⟨1, 1⟩, ⟨1, 3⟩⟩ ::
      ([⟨.identifier "a", ⟨1, 4⟩, ⟨1, 5⟩⟩] ++ ⟨.punct .colon, ⟨1, 6⟩, ⟨1, 7⟩⟩ ::
        lex ⟨1, 8⟩ (c.toList ++ inConstraint.behind.toList)) := by
    rw [htext, tokens_eq_lex, lex_unit_blank (.punct .ifThen) rfl rfl,
      lex_unit_blank (.identifier "a") rfl rfl, lex_unit_blank (.punct .colon) rfl rfl]
    rfl
  refine h.settles follows_dot htokens (by simp) ?_ ?_
  · intro n rest l' stop p hcondition
    obtain ⟨span, span', span'', hstatement⟩ :=
      statement_constraint ⟨1, 1⟩ ⟨1, 3⟩ ⟨1, 4⟩ ⟨1, 5⟩ hcondition (by rintro s ⟨⟩; decide)
    refine ⟨_, _, _, _, hstatement, rfl, rfl, ?_⟩
    simp [lowerBody, BodyElement.lower, Conditional.lowerPlain, placeless_conditional, inConstraint,
      ruleTree, falseTree, bare]
  · intro n rest hcondition
    obtain ⟨span, span', span'', hstatement⟩ :=
      statement_constraint ⟨1, 1⟩ ⟨1, 3⟩ ⟨1, 4⟩ ⟨1, 5⟩ hcondition (by rintro s ⟨⟩; decide)
    exact hstatement

theorem IsPlainBody.in_choice (h : IsPlainBody c l) : inChoice.Settles file c l := by
  have htext : (inChoice.fill c).toList = '{' ::
      ([] ++ ' ' :: 'a' :: ([] ++ ' ' :: ':' :: ([] ++ ' ' ::
      (c.toList ++ inChoice.behind.toList)))) := by
    simp [Surrounding.fill, inChoice, String.toList_append]
  have htokens : tokens (inChoice.fill c).toList = ⟨.punct .openBrace, ⟨1, 1⟩, ⟨1, 2⟩⟩ ::
      ([⟨.identifier "a", ⟨1, 3⟩, ⟨1, 4⟩⟩] ++ ⟨.punct .colon, ⟨1, 5⟩, ⟨1, 6⟩⟩ ::
        lex ⟨1, 7⟩ (c.toList ++ inChoice.behind.toList)) := by
    rw [htext, tokens_eq_lex, lex_unit_blank (.punct .openBrace) rfl rfl,
      lex_unit_blank (.identifier "a") rfl rfl, lex_unit_blank (.punct .colon) rfl rfl]
    rfl
  refine h.settles follows_brace htokens (by simp) ?_ ?_
  · intro n rest l' stop p hcondition
    obtain ⟨span, span', span'', hchoice⟩ :=
      choice_identifier ⟨1, 1⟩ ⟨1, 2⟩ ⟨1, 3⟩ ⟨1, 4⟩ hcondition (by simp)
    have hstatement := statement_openBrace (n + 2) ⟨1, 1⟩ ⟨1, 2⟩
      (⟨.identifier "a", ⟨1, 3⟩, ⟨1, 4⟩⟩ :: ⟨.punct .colon, ⟨1, 5⟩, ⟨1, 6⟩⟩ :: rest)
    rw [hchoice] at hstatement
    refine ⟨_, _, _, _, hstatement, rfl, rfl, ?_⟩
    simp [Head.lower, Choice.lower, Node.withNode?, placeless_conditional, inChoice, ruleTree,
      bare, lowerBody]
  · intro n rest hcondition
    obtain ⟨span, span', span'', hchoice⟩ :=
      choice_identifier ⟨1, 1⟩ ⟨1, 2⟩ ⟨1, 3⟩ ⟨1, 4⟩ hcondition (by simp)
    simp only [List.singleton_append, statement_openBrace, hchoice]
    rfl

/-- A name behind an arrow is a body. -/
theorem arrowBody_identifier (n : Nat) (b₁ e₁ b₂ e₂ b₃ e₃ : Position) (ts : List Token) :
    ∃ span span' span'', arrowBody (n + 2)
        (⟨.punct .ifThen, b₁, e₁⟩ :: ⟨.identifier "b", b₂, e₂⟩ :: ⟨.punct .dot, b₃, e₃⟩ :: ts) =
      some ([.conditional ⟨span, nameLiteral span' span'' "b", []⟩],
        ⟨.punct .dot, b₃, e₃⟩ :: ts) := by
  have hname : "b" ≠ "not" := by decide
  have hcondition : Surface.condition? (n + 2) (⟨.punct .dot, b₃, e₃⟩ :: ts) =
      (([], b₃), ⟨.punct .dot, b₃, e₃⟩ :: ts) := condition?_eq_nil (by simp [separator, punct])
  obtain ⟨span', span'', hliteral⟩ :=
    literal_identifier n b₂ e₂ ⟨.punct .dot, b₃, e₃⟩ ts hname endsTerm_dot
  have haggregate := aggregate_identifier n b₂ e₂ b₃ e₃ ts hname endsTerm_dot
  have hmore : further (n + 2) (fun s => s = .comma ∨ s = .semicolon) (bodyElement (n + 2))
      (⟨.punct .dot, b₃, e₃⟩ :: ts) = ([], ⟨.punct .dot, b₃, e₃⟩ :: ts) := further_eq_nil (by simp)
  simp only [Bool.decide_or] at hmore
  refine ⟨⟨b₂, b₃⟩, span', span'', ?_⟩
  simp [arrowBody, punct_self, optional, body, bodyElement, haggregate, conditional, hliteral,
    hcondition, hmore, nameLiteral, beginOf]

theorem IsPlainBody.in_disjunction (h : IsPlainBody c l) : inDisjunction.Settles file c l := by
  have htext : (inDisjunction.fill c).toList =
      'a' :: ([] ++ ' ' :: ':' :: ([] ++ ' ' :: (c.toList ++ inDisjunction.behind.toList))) := by
    simp [Surrounding.fill, inDisjunction, String.toList_append]
  have htokens : tokens (inDisjunction.fill c).toList = ⟨.identifier "a", ⟨1, 1⟩, ⟨1, 2⟩⟩ ::
      ([] ++ ⟨.punct .colon, ⟨1, 3⟩, ⟨1, 4⟩⟩ ::
        lex ⟨1, 5⟩ (c.toList ++ inDisjunction.behind.toList)) := by
    rw [htext, tokens_eq_lex, lex_unit_blank (.identifier "a") rfl rfl,
      lex_unit_blank (.punct .colon) rfl rfl]
    rfl
  refine h.settles follows_arrow htokens (by simp) ?_ ?_
  · intro n rest l' stop p hcondition
    obtain ⟨b₁, e₁, b₂, e₂, b₃, e₃, b₄, e₄, hlex⟩ := lex_arrow p
    rw [hlex] at hcondition
    obtain ⟨span, span', span'', span₂, hstatement⟩ :=
      statement_disjunction ⟨1, 1⟩ ⟨1, 2⟩ hcondition (by rintro s ⟨⟩; decide)
    obtain ⟨span₃, span₄, span₅, hbody⟩ :=
      arrowBody_identifier n b₁ e₁ b₂ e₂ b₃ e₃ [⟨.finish, b₄, e₄⟩]
    rw [optional, hbody] at hstatement
    refine ⟨_, _, _, _, hstatement, rfl, rfl, ?_⟩
    simp [Head.lower, placeless_conditional, placeless_nameLiteral, inDisjunction, ruleTree, bare,
      lowerBody, BodyElement.lower, Conditional.lowerPlain]
  · intro n rest hcondition
    obtain ⟨span, span', span'', span₂, hstatement⟩ :=
      statement_disjunction ⟨1, 1⟩ ⟨1, 2⟩ hcondition (by rintro s ⟨⟩; decide)
    exact hstatement

/-- A bound over a number, behind which a body ends. -/
theorem rightBound_number (n : Nat) (b₁ e₁ b₂ e₂ b₃ e₃ : Position) (ts : List Token) :
    ∃ span span' span'', rightBound (n + 2)
        (⟨.punct .greater, b₁, e₁⟩ :: ⟨.number "0", b₂, e₂⟩ :: ⟨.punct .dot, b₃, e₃⟩ :: ts) =
      some (⟨span, some .greater, .chain span' (.constant span'' "0") []⟩,
        ⟨.punct .dot, b₃, e₃⟩ :: ts) := by
  obtain ⟨span', span'', hterm⟩ := term_number n "0" b₂ e₂ ⟨.punct .dot, b₃, e₃⟩ ts endsTerm_dot
  refine ⟨⟨b₁, span'.stop⟩, span', span'', ?_⟩
  simp [rightBound, optional, punctWith, Punct.isComparison, hterm, beginOf, Term.span]

theorem IsPlainBody.in_count (h : IsPlainBody c l) : inCount.Settles file c l := by
  have htext : (inCount.fill c).toList =
      ':' :: (['-'] ++ ' ' :: '#' ::
        ("count".toList ++ ' ' :: '{' :: ([] ++ ' ' :: '1' :: ([] ++ ' ' :: ':' ::
        ([] ++ ' ' :: (c.toList ++ inCount.behind.toList)))))) := by
    simp [Surrounding.fill, inCount, String.toList_append]
  have htokens : tokens (inCount.fill c).toList = ⟨.punct .ifThen, ⟨1, 1⟩, ⟨1, 3⟩⟩ ::
      ([⟨.keyword .count, ⟨1, 4⟩, ⟨1, 10⟩⟩, ⟨.punct .openBrace, ⟨1, 11⟩, ⟨1, 12⟩⟩,
        ⟨.number "1", ⟨1, 13⟩, ⟨1, 14⟩⟩] ++ ⟨.punct .colon, ⟨1, 15⟩, ⟨1, 16⟩⟩ ::
          lex ⟨1, 17⟩ (c.toList ++ inCount.behind.toList)) := by
    rw [htext, tokens_eq_lex, lex_unit_blank (.punct .ifThen) rfl rfl,
      lex_unit_blank (.keyword .count) rfl rfl, lex_unit_blank (.punct .openBrace) rfl rfl,
      lex_unit_blank (.number "1") rfl rfl, lex_unit_blank (.punct .colon) rfl rfl]
    rfl
  refine h.settles follows_bound htokens (by simp) ?_ ?_
  · intro n rest l' stop p hcondition
    obtain ⟨b₁, e₁, b₂, e₂, b₃, e₃, b₄, e₄, b₅, e₅, hlex⟩ := lex_bound p
    rw [hlex] at hcondition
    obtain ⟨span, span', span'', span₂, hstatement⟩ :=
      statement_count ⟨1, 1⟩ ⟨1, 3⟩ ⟨1, 4⟩ ⟨1, 10⟩ ⟨1, 11⟩
        ⟨1, 12⟩ ⟨1, 13⟩ ⟨1, 14⟩ hcondition (by simp)
    obtain ⟨span₃, span₄, span₅, hright⟩ :=
      rightBound_number n b₂ e₂ b₃ e₃ b₄ e₄ [⟨.finish, b₅, e₅⟩]
    have hmore : further (n + 2) (fun s => s = .comma ∨ s = .semicolon) (bodyElement (n + 2))
        [⟨.punct .dot, b₄, e₄⟩, ⟨.finish, b₅, e₅⟩] =
          ([], [⟨.punct .dot, b₄, e₄⟩, ⟨.finish, b₅, e₅⟩]) :=
      further_eq_nil (by simp)
    simp only [punct_self, Option.bind_some, optional, hright, hmore] at hstatement
    refine ⟨_, _, _, _, hstatement, rfl, rfl, ?_⟩
    simp [lowerBody, BodyElement.lower, Aggregate.lower, AggregateElement.lower, lowerCondition,
      Terms.lower, lowerTerms, Term.lower, lowerChain, Factor.lower, Bound.lower, Node.withNode?,
      Negations.sign, Span.node, Punct.text, show Keyword.count.name = "count" by decide, inCount,
      ruleTree, falseTree, countTree, bare]
  · intro n rest hcondition
    obtain ⟨span, span', span'', span₂, hstatement⟩ :=
      statement_count ⟨1, 1⟩ ⟨1, 3⟩ ⟨1, 4⟩ ⟨1, 10⟩ ⟨1, 11⟩
        ⟨1, 12⟩ ⟨1, 13⟩ ⟨1, 14⟩ hcondition (by simp)
    exact hstatement

/-- A text that is a whole body of one plain literal is accepted as the only condition in
each kind of place for a condition, with the same tree. If its first token is a minus sign,
it is refused in all of them. -/
theorem IsPlainBody.as_condition (h : IsPlainBody c l) (file : Path) :
    LowersTo file (":- " ++ c ++ ".") (ruleTree falseTree [(l.lower file).placeless]) ∧
      ∀ place ∈ surroundings,
        (¬ StartsWithMinus c →
          LowersTo file (place.fill c) (place.tree (l.lower file).placeless)) ∧
        (StartsWithMinus c → parse? (place.fill c) = none) := by
  constructor
  · obtain ⟨span, span', hparse, -⟩ := h.reads
    refine lowersTo_of_parse? hparse rfl ?_
    simp [lowerBody, BodyElement.lower, Conditional.lowerPlain, ruleTree, falseTree, bare]
  · intro place hplace
    simp only [surroundings, List.mem_cons, List.not_mem_nil, or_false] at hplace
    rcases hplace with rfl | rfl | rfl | rfl
    · exact h.in_constraint
    · exact h.in_choice
    · exact h.in_disjunction
    · exact h.in_count

/-- A negated name is such a text. -/
theorem IsPlainBody.as_condition_of_negation :
    IsPlainBody "not b" ⟨⟨⟨1, 4⟩, ⟨1, 9⟩⟩, .once, .symbolic ⟨⟨⟨1, 8⟩, ⟨1, 9⟩⟩, false, "b", none⟩⟩ ∧
      LowersTo ⟨"p.lp"⟩ ":- a : not b." (ruleTree falseTree [conditionTree
        { nameTree "b" with sign := .negation }]) := by
  have htokens : tokens (":- " ++ "not b" ++ ".").toList =
      [⟨.punct .ifThen, ⟨1, 1⟩, ⟨1, 3⟩⟩, ⟨.identifier "not", ⟨1, 4⟩, ⟨1, 7⟩⟩,
        ⟨.identifier "b", ⟨1, 8⟩, ⟨1, 9⟩⟩, ⟨.punct .dot, ⟨1, 9⟩, ⟨1, 10⟩⟩,
        ⟨.finish, ⟨1, 10⟩, ⟨1, 10⟩⟩] := by
    decide +kernel
  have hplain : IsPlainBody "not b"
      ⟨⟨⟨1, 4⟩, ⟨1, 9⟩⟩, .once, .symbolic ⟨⟨⟨1, 8⟩, ⟨1, 9⟩⟩, false, "b", none⟩⟩ :=
    ⟨⟨⟨1, 1⟩, ⟨1, 10⟩⟩, ⟨⟨1, 4⟩, ⟨1, 9⟩⟩, by rw [parse?, htokens]; rfl, by decide +kernel⟩
  refine ⟨hplain, ?_⟩
  have hplace := (hplain.as_condition ⟨"p.lp"⟩).2 inConstraint (by simp [surroundings])
  exact hplace.1 (by decide +kernel)

/-- A classical negation is such a text, but a condition only behind another one. -/
theorem minus_is_no_condition :
    (∃ l, IsPlainBody "-b" l) ∧ (∀ place ∈ surroundings, parse? (place.fill "-b") = none) ∧
      (parse? ":- a : b, -b.").isSome := by
  have htokens : tokens (":- " ++ "-b" ++ ".").toList =
      [⟨.punct .ifThen, ⟨1, 1⟩, ⟨1, 3⟩⟩, ⟨.punct .minus, ⟨1, 4⟩, ⟨1, 5⟩⟩,
        ⟨.identifier "b", ⟨1, 5⟩, ⟨1, 6⟩⟩, ⟨.punct .dot, ⟨1, 6⟩, ⟨1, 7⟩⟩,
        ⟨.finish, ⟨1, 7⟩, ⟨1, 7⟩⟩] := by
    decide +kernel
  refine ⟨⟨⟨⟨⟨1, 4⟩, ⟨1, 6⟩⟩, .none, .symbolic ⟨⟨⟨1, 4⟩, ⟨1, 6⟩⟩, true, "b", none⟩⟩, ?_⟩,
    by decide +kernel, by decide +kernel⟩
  exact ⟨⟨⟨1, 1⟩, ⟨1, 7⟩⟩, ⟨⟨1, 4⟩, ⟨1, 6⟩⟩, by rw [parse?, htokens]; rfl, by decide +kernel⟩

end Main

end AspAtlas.Surface
