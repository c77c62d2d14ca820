import AspAtlas.Surface.Program
/-!
What readers do. A reader that gives something asked other readers, one behind the other,
and made it of what they gave. What is proved of everything a reader gives starts from its
steps and does not open it again.
-/
namespace AspAtlas.Surface

variable {α : Type} {n : Nat} {ts rest : List Token}

section Units

theorem punct_steps {symbol : Punct} {stop : Position} (h : punct symbol ts = some (stop, rest)) :
    ∃ begin, ts = ⟨.punct symbol, begin, stop⟩ :: rest := by
  unfold punct at h
  split at h
  · split at h <;> cases h
    subst_vars
    exact ⟨_, rfl⟩
  · cases h

/-- A dot is taken, or split off two of them. -/
theorem endDot_steps {stop : Position} (h : endDot ts = some (stop, rest)) :
    (∃ begin, ts = ⟨.punct .dot, begin, stop⟩ :: rest) ∨
      ∃ begin last more, ts = ⟨.punct .dots, begin, last⟩ :: more ∧ stop = begin.advance '.' ∧
        rest = ⟨.punct .dot, stop, last⟩ :: more := by
  unfold endDot at h
  split at h
  · cases h
    exact .inl ⟨_, rfl⟩
  · cases h
    exact .inr ⟨_, _, _, rfl, rfl, rfl⟩
  · cases h

theorem punctWith_steps {accept : Punct → Bool} {symbol : Punct}
    (h : punctWith accept ts = some (symbol, rest)) :
    ∃ begin stop, ts = ⟨.punct symbol, begin, stop⟩ :: rest ∧ accept symbol = true := by
  unfold punctWith at h
  split at h
  · split at h <;> cases h
    exact ⟨_, _, rfl, ‹_›⟩
  · cases h

theorem keyword_steps {word : Keyword} {u : Unit} (h : keyword word ts = some (u, rest)) :
    ∃ begin stop, ts = ⟨.keyword word, begin, stop⟩ :: rest := by
  unfold keyword at h
  split at h
  · split at h <;> cases h
    subst_vars
    exact ⟨_, _, rfl⟩
  · cases h

theorem keywordWith_steps {accept : Keyword → Bool} {word : Keyword}
    (h : keywordWith accept ts = some (word, rest)) :
    ∃ begin stop, ts = ⟨.keyword word, begin, stop⟩ :: rest ∧ accept word = true := by
  unfold keywordWith at h
  split at h
  · split at h <;> cases h
    exact ⟨_, _, rfl, ‹_›⟩
  · cases h

theorem identifier_steps {text : String} (h : identifier ts = some (text, rest)) :
    ∃ begin stop, ts = ⟨.identifier text, begin, stop⟩ :: rest := by
  unfold identifier at h
  split at h <;> cases h
  exact ⟨_, _, rfl⟩

theorem number_steps {digits : String} (h : number ts = some (digits, rest)) :
    ∃ begin stop, ts = ⟨.number digits, begin, stop⟩ :: rest := by
  unfold number at h
  split at h <;> cases h
  exact ⟨_, _, rfl⟩

theorem negator_steps {u : Unit} (h : negator ts = some (u, rest)) :
    ∃ begin stop, ts = ⟨.identifier "not", begin, stop⟩ :: rest := by
  unfold negator at h
  split at h <;> cases h
  exact ⟨_, _, rfl⟩

end Units

section Lists

variable {item : Reader α}

theorem orElse_steps {found : α × List Token} {x y : Option (α × List Token)}
    (h : (x <|> y) = some found) : x = some found ∨ x = none ∧ y = some found := by
  simpa only [Option.orElse_eq_orElse, Option.orElse_eq_or, Option.or_eq_some_iff] using h

theorem map_steps {β : Type} {f : α → β} {b : β}
    (h : (item ts).map (fun x => (f x.1, x.2)) = some (b, rest)) :
    ∃ a, item ts = some (a, rest) ∧ b = f a := by
  simp only [Option.map_eq_some_iff, Prod.exists, Prod.mk.injEq] at h
  obtain ⟨a, left, hitem, rfl, rfl⟩ := h
  exact ⟨a, hitem, rfl⟩

theorem optional_steps {x : Option α} (h : optional item ts = (x, rest)) :
    (∃ a, item ts = some (a, rest) ∧ x = some a) ∨ item ts = none ∧ x = none ∧ rest = ts := by
  unfold optional at h
  split at h
  · cases h
    exact .inl ⟨_, ‹_›, rfl⟩
  · cases h
    exact .inr ⟨‹_›, rfl, rfl⟩

theorem many_steps {more : List α} (h : many item (n + 1) ts = (more, rest)) :
    (∃ a left others, item ts = some (a, left) ∧ many item n left = (others, rest) ∧
      more = a :: others) ∨ item ts = none ∧ more = [] ∧ rest = ts := by
  unfold many at h
  split at h
  · rename_i a left hitem
    rcases hmany : many item n left with ⟨others, last⟩
    rw [hmany] at h
    cases h
    exact .inl ⟨a, left, others, hitem, hmany, rfl⟩
  · cases h
    exact .inr ⟨‹_›, rfl, rfl⟩

theorem after_steps {separator : Punct → Bool} {a : α}
    (h : after separator item ts = some (a, rest)) :
    ∃ symbol left, punctWith separator ts = some (symbol, left) ∧ item left = some (a, rest) := by
  simpa only [after, Option.bind_eq_bind, Option.bind_eq_some_iff, Prod.exists] using h

theorem semicolons_steps {more : List α} (h : semicolons n item ts = (more, rest)) :
    (∃ first left others, item ts = some (first, left) ∧
      further n (· = .semicolon) item left = (others, rest) ∧ more = first :: others) ∨
      item ts = none ∧ more = [] ∧ rest = ts := by
  unfold semicolons at h
  split at h
  · rename_i first left hfirst
    rcases hfurther : further n (· = .semicolon) item left with ⟨others, last⟩
    rw [hfurther] at h
    cases h
    exact .inl ⟨first, left, others, hfirst, hfurther, rfl⟩
  · cases h
    exact .inr ⟨‹_›, rfl, rfl⟩

end Lists

section Terms

variable {term : Reader Term} {factor : Reader Factor} {found : Factor}

theorem termsOf_steps {terms : Terms} (h : termsOf n term ts = some (terms, rest)) :
    ∃ first left more, term ts = some (first, left) ∧
      further n (· = .comma) term left = (more, rest) ∧
      terms = .list ⟨beginOf ts, endOf (·.span.stop) more left⟩ first more := by
  simp only [termsOf, Option.bind_eq_bind, Option.bind_eq_some_iff, Prod.exists] at h
  obtain ⟨first, left, hfirst, h⟩ := h
  rcases hmore : further n (· = .comma) term left with ⟨more, last⟩
  rw [hmore] at h
  cases h
  exact ⟨first, left, more, hfirst, hmore, rfl⟩

theorem poolOf_steps {pool : Pool} (h : poolOf n term ts = some (pool, rest)) :
    ∃ first left others, termsOf n term ts = some (first, left) ∧
      further n (· = .semicolon) (termsOf n term) left = (others, rest) ∧
        pool = .alternatives first others := by
  simp only [poolOf, Option.bind_eq_bind, Option.bind_eq_some_iff, Prod.exists] at h
  obtain ⟨first, left, hfirst, h⟩ := h
  rcases hmore : further n (· = .semicolon) (termsOf n term) left with ⟨others, last⟩
  rw [hmore] at h
  cases h
  exact ⟨first, left, others, hfirst, hmore, rfl⟩

theorem argumentsOf_steps {pool : Option Pool} {stop : Position}
    (h : argumentsOf n term ts = some ((pool, stop), rest)) :
    ∃ opened ts₁ ts₂, punct .opening ts = some (opened, ts₁) ∧
      optional (poolOf n term) ts₁ = (pool, ts₂) ∧ punct .closing ts₂ = some (stop, rest) := by
  simp only [argumentsOf, Option.bind_eq_bind, Option.bind_eq_some_iff, Prod.exists] at h
  obtain ⟨opened, ts₁, hopening, h⟩ := h
  rcases hpool : optional (poolOf n term) ts₁ with ⟨found, ts₂⟩
  simp only [hpool] at h
  obtain ⟨closed, ts₃, hclosing, h⟩ := h
  cases h
  exact ⟨opened, ts₁, ts₂, hopening, hpool, hclosing⟩

theorem tupleOf_steps (h : tupleOf n term ts = some (found, rest)) :
    ∃ opened ts₁ pool ts₂ comma ts₃ stop, punct .opening ts = some (opened, ts₁) ∧
      optional (poolOf n term) ts₁ = (pool, ts₂) ∧ optional (punct .comma) ts₂ = (comma, ts₃) ∧
      punct .closing ts₃ = some (stop, rest) ∧ found = .tuple ⟨beginOf ts, stop⟩ pool := by
  simp only [tupleOf, Option.bind_eq_bind, Option.bind_eq_some_iff, Prod.exists] at h
  obtain ⟨opened, ts₁, hopening, h⟩ := h
  rcases hpool : optional (poolOf n term) ts₁ with ⟨pool, ts₂⟩
  rcases hcomma : optional (punct .comma) ts₂ with ⟨comma, ts₃⟩
  simp only [hpool, hcomma] at h
  obtain ⟨stop, ts₄, hclosing, h⟩ := h
  cases h
  exact ⟨opened, ts₁, pool, ts₂, comma, ts₃, stop, hopening, hpool, hcomma, hclosing, rfl⟩

theorem absoluteOf_steps (h : absoluteOf term ts = some (found, rest)) :
    ∃ opened ts₁ inner ts₂ stop, punct .bar ts = some (opened, ts₁) ∧ term ts₁ = some (inner, ts₂) ∧
      punct .bar ts₂ = some (stop, rest) ∧ found = .absolute ⟨beginOf ts, stop⟩ inner := by
  simp only [absoluteOf, Option.bind_eq_bind, Option.bind_eq_some_iff, Prod.exists] at h
  obtain ⟨opened, ts₁, hopening, inner, ts₂, hinner, stop, ts₃, hclosing, h⟩ := h
  cases h
  exact ⟨opened, ts₁, inner, ts₂, stop, hopening, hinner, hclosing, rfl⟩

theorem functionOf_steps (h : functionOf n term ts = some (found, rest)) :
    ∃ name left, identifier ts = some (name, left) ∧
      ((∃ pool stop, argumentsOf n term left = some ((pool, stop), rest) ∧
        found = .function ⟨beginOf ts, stop⟩ name pool) ∨
      argumentsOf n term left = none ∧ rest = left ∧
        found = .function ⟨beginOf ts, beginOf left⟩ name none) := by
  simp only [functionOf, Option.bind_eq_bind, Option.bind_eq_some_iff, Prod.exists] at h
  obtain ⟨name, left, hname, h⟩ := h
  refine ⟨name, left, hname, ?_⟩
  split at h
  · cases h
    exact .inl ⟨_, _, ‹_›, rfl⟩
  · cases h
    exact .inr ⟨‹_›, rfl, rfl⟩

/-- A constant is a number, a quoted text or one of the words for the extremes. -/
theorem simpleFactor_steps (h : simpleFactor ts = some (found, rest)) :
    ∃ lexeme begin stop, ts = ⟨lexeme, begin, stop⟩ :: rest ∧
      ((∃ text, lexeme = .var text ∧ found = .var ⟨begin, stop⟩ text) ∨
        (∃ text, (lexeme = .number text ∨ lexeme = .quoted text) ∧
          found = .constant ⟨begin, stop⟩ text) ∨
        ∃ word, word ∈ [Keyword.supremum, .sup, .infimum, .inf] ∧ lexeme = .keyword word ∧
          found = .constant ⟨begin, stop⟩ word.text) := by
  unfold simpleFactor at h
  split at h
  · cases h
    exact ⟨_, _, _, rfl, .inl ⟨_, rfl, rfl⟩⟩
  · cases h
    exact ⟨_, _, _, rfl, .inr (.inl ⟨_, .inl rfl, rfl⟩)⟩
  · cases h
    exact ⟨_, _, _, rfl, .inr (.inl ⟨_, .inr rfl, rfl⟩)⟩
  · split at h <;> cases h
    exact ⟨_, _, _, rfl, .inr (.inr ⟨_, ‹_›, rfl, rfl⟩)⟩
  · cases h

theorem negationOf_steps (h : negationOf factor ts = some (found, rest)) :
    ∃ minus left inner, punct .minus ts = some (minus, left) ∧ factor left = some (inner, rest) ∧
      found = .negation ⟨beginOf ts, inner.span.stop⟩ inner := by
  simp only [negationOf, Option.bind_eq_bind, Option.bind_eq_some_iff, Prod.exists] at h
  obtain ⟨minus, left, hminus, inner, last, hinner, h⟩ := h
  cases h
  exact ⟨minus, left, inner, hminus, hinner, rfl⟩

theorem operandOf_steps {operator : Punct}
    (h : operandOf factor ts = some ((operator, found), rest)) :
    ∃ left, punctWith Punct.isArithmetic ts = some (operator, left) ∧
      factor left = some (found, rest) := by
  simp only [operandOf, Option.bind_eq_bind, Option.bind_eq_some_iff, Prod.exists] at h
  obtain ⟨operator, left, hoperator, operand, last, hoperand, h⟩ := h
  cases h
  exact ⟨left, hoperator, hoperand⟩

theorem chainOf_steps {chain : Term} (h : chainOf n factor ts = some (chain, rest)) :
    ∃ first left more, factor ts = some (first, left) ∧
      many (operandOf factor) n left = (more, rest) ∧
      chain = .chain ⟨beginOf ts, endOf (·.2.span.stop) more left⟩ first more := by
  simp only [chainOf, Option.bind_eq_bind, Option.bind_eq_some_iff, Prod.exists] at h
  obtain ⟨first, left, hfirst, h⟩ := h
  rcases hmore : many (operandOf factor) n left with ⟨more, last⟩
  rw [hmore] at h
  cases h
  exact ⟨first, left, more, hfirst, hmore, rfl⟩

end Terms

section Literals

/-- At most two negators are taken. -/
theorem negations_steps {sign : Negations} (h : negations ts = (sign, rest)) :
    (negator ts = none ∧ sign = .none ∧ rest = ts) ∨
      ∃ first left, negator ts = some (first, left) ∧
        ((negator left = none ∧ sign = .once ∧ rest = left) ∨
          ∃ second, negator left = some (second, rest) ∧ sign = .twice) := by
  unfold negations at h
  split at h
  · cases h
    exact .inl ⟨‹_›, rfl, rfl⟩
  · rename_i first left hfirst
    refine .inr ⟨first, left, hfirst, ?_⟩
    split at h
    · cases h
      exact .inl ⟨‹_›, rfl, rfl⟩
    · cases h
      exact .inr ⟨_, ‹_›, rfl⟩

theorem separator_steps {u : Unit} (h : separator ts = some (u, rest)) :
    ∃ stop, punct .colon ts = some (stop, rest) := by
  simp only [separator, Option.bind_eq_bind, Option.bind_eq_some_iff, Prod.exists] at h
  obtain ⟨stop, left, hcolon, h⟩ := h
  split at h <;> cases h
  exact ⟨stop, hcolon⟩

theorem boolean_steps {a : Assertion} (h : boolean ts = some (a, rest)) :
    ∃ word begin stop, ts = ⟨.keyword word, begin, stop⟩ :: rest ∧
      (word = .truth ∨ word = .falsity) ∧ a = .boolean ⟨begin, stop⟩ word := by
  unfold boolean at h
  split at h
  · split at h <;> cases h
    exact ⟨_, _, _, rfl, ‹_›, rfl⟩
  · cases h

theorem comparison_steps {a : Assertion} (h : comparison n ts = some (a, rest)) :
    ∃ left ts₁ operator ts₂ right, term n ts = some (left, ts₁) ∧
      punctWith Punct.isComparison ts₁ = some (operator, ts₂) ∧ term n ts₂ = some (right, rest) ∧
      a = .comparison ⟨beginOf ts, right.span.stop⟩ left operator right := by
  simp only [comparison, Option.bind_eq_bind, Option.bind_eq_some_iff, Prod.exists] at h
  obtain ⟨left, ts₁, hleft, operator, ts₂, hoperator, right, ts₃, hright, h⟩ := h
  cases h
  exact ⟨left, ts₁, operator, ts₂, right, hleft, hoperator, hright, rfl⟩

theorem atom_steps {a : Atom} (h : atom n ts = some (a, rest)) :
    ∃ minus ts₁ name ts₂, optional (punct .minus) ts = (minus, ts₁) ∧
      identifier ts₁ = some (name, ts₂) ∧
      ((∃ pool stop, argumentsOf n (term n) ts₂ = some ((pool, stop), rest) ∧
        a = ⟨⟨beginOf ts, stop⟩, minus.isSome, name, pool⟩) ∨
      argumentsOf n (term n) ts₂ = none ∧ rest = ts₂ ∧
        a = ⟨⟨beginOf ts, beginOf ts₂⟩, minus.isSome, name, none⟩) := by
  rcases hminus : optional (punct .minus) ts with ⟨minus, ts₁⟩
  simp only [atom, hminus, Option.bind_eq_bind, Option.bind_eq_some_iff, Prod.exists] at h
  obtain ⟨name, ts₂, hname, h⟩ := h
  refine ⟨minus, ts₁, name, ts₂, rfl, hname, ?_⟩
  split at h
  · cases h
    exact .inl ⟨_, _, ‹_›, rfl⟩
  · cases h
    exact .inr ⟨‹_›, rfl, rfl⟩

theorem assertion_steps {a : Assertion} (h : assertion n ts = some (a, rest)) :
    boolean ts = some (a, rest) ∨ comparison n ts = some (a, rest) ∨
      ∃ found, atom n ts = some (found, rest) ∧ a = .symbolic found := by
  rw [assertion] at h
  rcases orElse_steps h with h | ⟨-, h⟩
  · exact .inl h
  rcases orElse_steps h with h | ⟨-, h⟩
  · exact .inr (.inl h)
  · obtain ⟨found, hfound, rfl⟩ := map_steps (f := Assertion.symbolic) h
    exact .inr (.inr ⟨found, hfound, rfl⟩)

theorem literal_steps {l : Literal} (h : literal n ts = some (l, rest)) :
    ∃ sign ts₁ found, negations ts = (sign, ts₁) ∧ assertion n ts₁ = some (found, rest) ∧
      l = ⟨⟨beginOf ts, found.span.stop⟩, sign, found⟩ := by
  rcases hsign : negations ts with ⟨sign, ts₁⟩
  simp only [literal, hsign, Option.bind_eq_bind, Option.bind_eq_some_iff, Prod.exists] at h
  obtain ⟨found, ts₂, hfound, h⟩ := h
  cases h
  exact ⟨sign, ts₁, found, rfl, hfound, rfl⟩

theorem condition_steps {found : List Literal} {stop : Position}
    (h : condition n ts = some ((found, stop), rest)) :
    ∃ u ts₁ first ts₂ more, separator ts = some (u, ts₁) ∧ literal n ts₁ = some (first, ts₂) ∧
      further n (· = .comma) (literal n) ts₂ = (more, rest) ∧ found = first :: more ∧
      stop = endOf (·.span.stop) more ts₂ := by
  simp only [condition, Option.bind_eq_bind, Option.bind_eq_some_iff, Prod.exists] at h
  obtain ⟨u, ts₁, hcolon, first, ts₂, hfirst, h⟩ := h
  rcases hmore : further n (· = .comma) (literal n) ts₂ with ⟨more, left⟩
  rw [hmore] at h
  cases h
  exact ⟨u, ts₁, first, ts₂, more, hcolon, hfirst, hmore, rfl, rfl⟩

theorem condition?_steps {found : List Literal} {stop : Position}
    (h : condition? n ts = ((found, stop), rest)) : condition n ts = some ((found, stop), rest) ∨
      condition n ts = none ∧ found = [] ∧ stop = beginOf ts ∧ rest = ts := by
  unfold condition? at h
  split at h
  · subst h
    exact .inl ‹_›
  · cases h
    exact .inr ⟨‹_›, rfl, rfl, rfl⟩

theorem conditional_steps {c : Conditional} (h : conditional n ts = some (c, rest)) :
    ∃ first left found stop, literal n ts = some (first, left) ∧
      condition? n left = ((found, stop), rest) ∧ c = ⟨⟨beginOf ts, stop⟩, first, found⟩ := by
  simp only [conditional, Option.bind_eq_bind, Option.bind_eq_some_iff, Prod.exists] at h
  obtain ⟨first, left, hfirst, h⟩ := h
  rcases hcondition : condition? n left with ⟨⟨found, stop⟩, last⟩
  rw [hcondition] at h
  cases h
  exact ⟨first, left, found, stop, hfirst, hcondition, rfl⟩

theorem leftBound_steps {b : Bound} (h : leftBound n ts = some (b, rest)) :
    ∃ found left, term n ts = some (found, left) ∧
      ((∃ operator, punctWith Punct.isComparison left = some (operator, rest) ∧
        b = ⟨⟨beginOf ts, (left.head?.map Token.stop).getD (beginOf left)⟩, some operator, found⟩) ∨
      punctWith Punct.isComparison left = none ∧ rest = left ∧
        b = ⟨⟨beginOf ts, beginOf left⟩, none, found⟩) := by
  simp only [leftBound, Option.bind_eq_bind, Option.bind_eq_some_iff, Prod.exists] at h
  obtain ⟨found, left, hfound, h⟩ := h
  refine ⟨found, left, hfound, ?_⟩
  split at h
  · cases h
    exact .inl ⟨_, ‹_›, rfl⟩
  · cases h
    exact .inr ⟨‹_›, rfl, rfl⟩

theorem rightBound_steps {b : Bound} (h : rightBound n ts = some (b, rest)) :
    ∃ operator left found, optional (punctWith Punct.isComparison) ts = (operator, left) ∧
      term n left = some (found, rest) ∧ b = ⟨⟨beginOf ts, found.span.stop⟩, operator, found⟩ := by
  rcases hoperator : optional (punctWith Punct.isComparison) ts with ⟨operator, left⟩
  simp only [rightBound, hoperator, Option.bind_eq_bind, Option.bind_eq_some_iff, Prod.exists] at h
  obtain ⟨found, last, hfound, h⟩ := h
  cases h
  exact ⟨operator, left, found, rfl, hfound, rfl⟩

theorem aggregateElement_steps {e : AggregateElement} (h : aggregateElement n ts = some (e, rest)) :
    (∃ terms left found stop, termsOf n (term n) ts = some (terms, left) ∧
      condition? n left = ((found, stop), rest) ∧ e = ⟨⟨beginOf ts, stop⟩, some terms, found⟩) ∨
    termsOf n (term n) ts = none ∧ ∃ found stop, condition n ts = some ((found, stop), rest) ∧
      e = ⟨⟨beginOf ts, stop⟩, none, found⟩ := by
  unfold aggregateElement at h
  split at h
  · rename_i terms left hterms
    rcases hcondition : condition? n left with ⟨⟨found, stop⟩, last⟩
    rw [hcondition] at h
    cases h
    exact .inl ⟨terms, left, found, stop, hterms, hcondition, rfl⟩
  · simp only [Option.map_eq_some_iff, Prod.exists, Prod.mk.injEq] at h
    obtain ⟨found, stop, left, hcondition, rfl, rfl⟩ := h
    exact .inr ⟨‹_›, found, stop, hcondition, rfl⟩

theorem aggregate_steps {a : Aggregate} (h : aggregate n ts = some (a, rest)) :
    ∃ sign ts₁ left ts₂ function ts₃ opened ts₄ elements ts₅ closed ts₆ right,
      negations ts = (sign, ts₁) ∧ optional (leftBound n) ts₁ = (left, ts₂) ∧
      keywordWith isAggregateFunction ts₂ = some (function, ts₃) ∧
      punct .openBrace ts₃ = some (opened, ts₄) ∧
      semicolons n (aggregateElement n) ts₄ = (elements, ts₅) ∧
      punct .closeBrace ts₅ = some (closed, ts₆) ∧ optional (rightBound n) ts₆ = (right, rest) ∧
      a = ⟨⟨beginOf ts, boundEnd right rest⟩, sign, left, function, elements, right⟩ := by
  rcases hsign : negations ts with ⟨sign, ts₁⟩
  rcases hleft : optional (leftBound n) ts₁ with ⟨left, ts₂⟩
  simp only [aggregate, hsign, hleft, Option.bind_eq_bind, Option.bind_eq_some_iff,
    Prod.exists] at h
  obtain ⟨function, ts₃, hfunction, opened, ts₄, hopening, h⟩ := h
  rcases helements : semicolons n (aggregateElement n) ts₄ with ⟨elements, ts₅⟩
  simp only [helements] at h
  obtain ⟨closed, ts₆, hclosing, h⟩ := h
  rcases hright : optional (rightBound n) ts₆ with ⟨right, ts₇⟩
  rw [hright] at h
  cases h
  exact ⟨sign, ts₁, left, ts₂, function, ts₃, opened, ts₄, elements, ts₅, closed, ts₆,
    right, rfl, hleft, hfunction, hopening, helements, hclosing, hright, rfl⟩

theorem bodyElement_steps {e : BodyElement} (h : bodyElement n ts = some (e, rest)) :
    (∃ a, aggregate n ts = some (a, rest) ∧ e = .aggregate a) ∨
      ∃ c, conditional n ts = some (c, rest) ∧ e = .conditional c := by
  rw [bodyElement] at h
  rcases orElse_steps h with h | ⟨-, h⟩
  · exact .inl (map_steps (f := BodyElement.aggregate) h)
  · exact .inr (map_steps (f := BodyElement.conditional) h)

theorem body_steps {found : List BodyElement} (h : body n ts = some (found, rest)) :
    ∃ first left more, bodyElement n ts = some (first, left) ∧
      further n (fun s => s = .comma ∨ s = .semicolon) (bodyElement n) left = (more, rest) ∧
      found = first :: more := by
  simp only [body, Option.bind_eq_bind, Option.bind_eq_some_iff, Prod.exists] at h
  obtain ⟨first, left, hfirst, h⟩ := h
  rcases hmore : further n (fun s => s = .comma ∨ s = .semicolon) (bodyElement n) left with
    ⟨more, last⟩
  rw [hmore] at h
  cases h
  exact ⟨first, left, more, hfirst, hmore, rfl⟩

theorem choice_steps {c : Choice} (h : choice n ts = some (c, rest)) :
    ∃ left ts₁ opened ts₂ elements ts₃ closed ts₄ right, optional (leftBound n) ts = (left, ts₁) ∧
      punct .openBrace ts₁ = some (opened, ts₂) ∧
      semicolons n (conditional n) ts₂ = (elements, ts₃) ∧
      punct .closeBrace ts₃ = some (closed, ts₄) ∧ optional (rightBound n) ts₄ = (right, rest) ∧
      c = ⟨⟨beginOf ts, boundEnd right rest⟩, left, elements, right⟩ := by
  rcases hleft : optional (leftBound n) ts with ⟨left, ts₁⟩
  simp only [choice, hleft, Option.bind_eq_bind, Option.bind_eq_some_iff, Prod.exists] at h
  obtain ⟨opened, ts₂, hopening, h⟩ := h
  rcases helements : semicolons n (conditional n) ts₂ with ⟨elements, ts₃⟩
  simp only [helements] at h
  obtain ⟨closed, ts₄, hclosing, h⟩ := h
  rcases hright : optional (rightBound n) ts₄ with ⟨right, ts₅⟩
  rw [hright] at h
  cases h
  exact ⟨left, ts₁, opened, ts₂, elements, ts₃, closed, ts₄, right, rfl, hopening,
    helements, hclosing, hright, rfl⟩

theorem disjunction_steps {found : Head} (h : disjunction n ts = some (found, rest)) :
    ∃ first left more, conditional n ts = some (first, left) ∧
      further n (fun s => s = .semicolon ∨ s = .bar) (conditional n) left = (more, rest) ∧
      found = .disjunction ⟨beginOf ts, endOf (·.span.stop) more left⟩ first more := by
  simp only [disjunction, Option.bind_eq_bind, Option.bind_eq_some_iff, Prod.exists] at h
  obtain ⟨first, left, hfirst, h⟩ := h
  rcases hmore : further n (fun s => s = .semicolon ∨ s = .bar) (conditional n) left with
    ⟨more, last⟩
  rw [hmore] at h
  cases h
  exact ⟨first, left, more, hfirst, hmore, rfl⟩

end Literals

section Statements

variable {s : Statement}

theorem includeStatement_steps (h : includeStatement ts = some (s, rest)) :
    ∃ u target begin stop left last, keyword .includes ts =
      some (u, ⟨.quoted target, begin, stop⟩ :: left) ∧
      endDot left = some (last, rest) ∧ s = .includes ⟨beginOf ts, last⟩ target := by
  simp only [includeStatement, Option.bind_eq_bind, Option.bind_eq_some_iff, Prod.exists] at h
  obtain ⟨u, left, hword, h⟩ := h
  split at h
  · simp only [Option.bind_eq_some_iff, Prod.exists] at h
    obtain ⟨last, left, hdot, h⟩ := h
    cases h
    exact ⟨u, _, _, _, _, last, hword, hdot, rfl⟩
  · cases h

theorem bracketedName_steps {stop : Position} (h : bracketedName ts = some (stop, rest)) :
    ∃ opened ts₁ name ts₂, punct .openBracket ts = some (opened, ts₁) ∧
      identifier ts₁ = some (name, ts₂) ∧ punct .closeBracket ts₂ = some (stop, rest) := by
  simpa only [bracketedName, Option.bind_eq_bind, Option.bind_eq_some_iff, Prod.exists,
    exists_and_left] using h

theorem bracketedTerm_steps {found : Term} {stop : Position}
    (h : bracketedTerm n ts = some ((found, stop), rest)) :
    ∃ opened ts₁ ts₂, punct .openBracket ts = some (opened, ts₁) ∧ term n ts₁ = some (found, ts₂) ∧
      punct .closeBracket ts₂ = some (stop, rest) := by
  simp only [bracketedTerm, Option.bind_eq_bind, Option.bind_eq_some_iff, Prod.exists] at h
  obtain ⟨opened, ts₁, hopening, found, ts₂, hfound, stop, ts₃, hclosing, h⟩ := h
  cases h
  exact ⟨opened, ts₁, ts₂, hopening, hfound, hclosing⟩

theorem constantStatement_steps (h : constantStatement n ts = some (s, rest)) :
    ∃ u ts₁ name ts₂ equal ts₃ value ts₄ dot ts₅, keyword .const ts = some (u, ts₁) ∧
      identifier ts₁ = some (name, ts₂) ∧ punct .equal ts₂ = some (equal, ts₃) ∧
      term n ts₃ = some (value, ts₄) ∧ endDot ts₄ = some (dot, ts₅) ∧
      ((∃ stop, bracketedName ts₅ = some (stop, rest) ∧
        s = .constant ⟨beginOf ts, stop⟩ name value) ∨
      bracketedName ts₅ = none ∧ rest = ts₅ ∧
        s = .constant ⟨beginOf ts, beginOf ts₅⟩ name value) := by
  simp only [constantStatement, Option.bind_eq_bind, Option.bind_eq_some_iff, Prod.exists] at h
  obtain ⟨u, ts₁, hword, name, ts₂, hname, equal, ts₃, hequal, value, ts₄, hvalue, dot, ts₅,
    hdot, h⟩ := h
  refine ⟨u, ts₁, name, ts₂, equal, ts₃, value, ts₄, dot, ts₅, hword, hname, hequal,
    hvalue, hdot, ?_⟩
  split at h
  · cases h
    exact .inl ⟨_, ‹_›, rfl⟩
  · cases h
    exact .inr ⟨‹_›, rfl, rfl⟩

theorem signature_steps {name digits : String} {stop : Position}
    (h : signature ts = some ((name, digits, stop), rest)) :
    ∃ ts₁ slash ts₂ ts₃, identifier ts = some (name, ts₁) ∧ punct .slash ts₁ = some (slash, ts₂) ∧
      number ts₂ = some (digits, ts₃) ∧ endDot ts₃ = some (stop, rest) := by
  simp only [signature, Option.bind_eq_bind, Option.bind_eq_some_iff, Prod.exists] at h
  obtain ⟨name, ts₁, hname, slash, ts₂, hslash, digits, ts₃, hdigits, stop, ts₄, hdot, h⟩ := h
  cases h
  exact ⟨ts₁, slash, ts₂, ts₃, hname, hslash, hdigits, hdot⟩

theorem signatureStatement_steps {word : Keyword} {make : Span → String → String → Statement}
    (h : signatureStatement word make ts = some (s, rest)) :
    ∃ u left name digits stop, keyword word ts = some (u, left) ∧
      signature left = some ((name, digits, stop), rest) ∧
      s = make ⟨beginOf ts, stop⟩ name digits := by
  simp only [signatureStatement, Option.bind_eq_bind, Option.bind_eq_some_iff, Prod.exists] at h
  obtain ⟨u, left, hword, name, digits, stop, last, hsignature, h⟩ := h
  cases h
  exact ⟨u, left, name, digits, stop, hword, hsignature, rfl⟩

theorem showAllStatement_steps (h : showAllStatement ts = some (s, rest)) :
    ∃ u left stop, keyword .shows ts = some (u, left) ∧ endDot left = some (stop, rest) ∧
      s = .showAll ⟨beginOf ts, stop⟩ := by
  simp only [showAllStatement, Option.bind_eq_bind, Option.bind_eq_some_iff, Prod.exists] at h
  obtain ⟨u, left, hword, stop, last, hdot, h⟩ := h
  cases h
  exact ⟨u, left, stop, hword, hdot, rfl⟩

theorem separatedBody_steps {found : List BodyElement}
    (h : separatedBody n ts = some (found, rest)) :
    ∃ u left, separator ts = some (u, left) ∧ body n left = some (found, rest) := by
  simpa only [separatedBody, Option.bind_eq_bind, Option.bind_eq_some_iff, Prod.exists] using h

theorem showTermStatement_steps (h : showTermStatement n ts = some (s, rest)) :
    ∃ u ts₁ found ts₂ body ts₃ stop, keyword .shows ts = some (u, ts₁) ∧
      term n ts₁ = some (found, ts₂) ∧
      optional (separatedBody n) ts₂ = (body, ts₃) ∧ endDot ts₃ = some (stop, rest) ∧
      s = .showTerm ⟨beginOf ts, stop⟩ found (body.getD []) := by
  simp only [showTermStatement, Option.bind_eq_bind, Option.bind_eq_some_iff, Prod.exists] at h
  obtain ⟨u, ts₁, hword, found, ts₂, hfound, h⟩ := h
  rcases hbody : optional (separatedBody n) ts₂ with ⟨body, ts₃⟩
  simp only [hbody] at h
  obtain ⟨stop, ts₄, hdot, h⟩ := h
  cases h
  exact ⟨u, ts₁, found, ts₂, body, ts₃, stop, hword, hfound, hbody, hdot, rfl⟩

theorem parameterNames_steps {u : Unit} (h : parameterNames n ts = some (u, rest)) :
    ∃ opened left closed, punct .opening ts = some (opened, left) ∧
      ((∃ name ts₁ more ts₂, identifier left = some (name, ts₁) ∧
        further n (· = .comma) identifier ts₁ = (more, ts₂) ∧
          punct .closing ts₂ = some (closed, rest)) ∨
      identifier left = none ∧ punct .closing left = some (closed, rest)) := by
  simp only [parameterNames, Option.bind_eq_bind, Option.bind_eq_some_iff, Prod.exists] at h
  obtain ⟨opened, left, hopening, closed, last, hclosing, h⟩ := h
  cases h
  refine ⟨opened, left, closed, hopening, ?_⟩
  split at hclosing
  · rename_i name ts₁ hname
    exact .inl ⟨name, ts₁, _, _, hname, rfl, hclosing⟩
  · exact .inr ⟨‹_›, hclosing⟩

theorem programStatement_steps (h : programStatement n ts = some (s, rest)) :
    ∃ u ts₁ name ts₂ names ts₃ stop, keyword .program ts = some (u, ts₁) ∧
      identifier ts₁ = some (name, ts₂) ∧
      optional (parameterNames n) ts₂ = (names, ts₃) ∧ endDot ts₃ = some (stop, rest) ∧
      s = .program ⟨beginOf ts, stop⟩ name := by
  simp only [programStatement, Option.bind_eq_bind, Option.bind_eq_some_iff, Prod.exists] at h
  obtain ⟨u, ts₁, hword, name, ts₂, hname, h⟩ := h
  rcases hnames : optional (parameterNames n) ts₂ with ⟨names, ts₃⟩
  simp only [hnames] at h
  obtain ⟨stop, ts₄, hdot, h⟩ := h
  cases h
  exact ⟨u, ts₁, name, ts₂, names, ts₃, stop, hword, hname, hnames, hdot, rfl⟩

theorem externalStatement_steps (h : externalStatement n ts = some (s, rest)) :
    ∃ u ts₁ a ts₂ found last ts₃ dot ts₄, keyword .external ts = some (u, ts₁) ∧
      atom n ts₁ = some (a, ts₂) ∧
      condition? n ts₂ = ((found, last), ts₃) ∧ endDot ts₃ = some (dot, ts₄) ∧
      ((∃ type stop, bracketedTerm n ts₄ = some ((type, stop), rest) ∧
        s = .external ⟨beginOf ts, stop⟩ a found (some type)) ∨
      bracketedTerm n ts₄ = none ∧ rest = ts₄ ∧
        s = .external ⟨beginOf ts, beginOf ts₄⟩ a found none) := by
  simp only [externalStatement, Option.bind_eq_bind, Option.bind_eq_some_iff, Prod.exists] at h
  obtain ⟨u, ts₁, hword, a, ts₂, hatom, h⟩ := h
  rcases hcondition : condition? n ts₂ with ⟨⟨found, last⟩, ts₃⟩
  simp only [hcondition] at h
  obtain ⟨dot, ts₄, hdot, h⟩ := h
  refine ⟨u, ts₁, a, ts₂, found, last, ts₃, dot, ts₄, hword, hatom, hcondition, hdot, ?_⟩
  split at h
  · cases h
    exact .inl ⟨_, _, ‹_›, rfl⟩
  · cases h
    exact .inr ⟨‹_›, rfl, rfl⟩

theorem priority_steps {found : Term} (h : priority n ts = some (found, rest)) :
    ∃ sign left, punct .atSign ts = some (sign, left) ∧ term n left = some (found, rest) := by
  simpa only [priority, Option.bind_eq_bind, Option.bind_eq_some_iff, Prod.exists] using h

theorem weight_steps {w : Weight} (h : weight n ts = some (w, rest)) :
    ∃ found ts₁ priority ts₂ terms, term n ts = some (found, ts₁) ∧
      optional (Surface.priority n) ts₁ = (priority, ts₂) ∧
      further n (· = .comma) (term n) ts₂ = (terms, rest) ∧
      w = ⟨⟨beginOf ts, endOf (·.span.stop) terms ts₂⟩, found, priority, terms⟩ := by
  simp only [weight, Option.bind_eq_bind, Option.bind_eq_some_iff, Prod.exists] at h
  obtain ⟨found, ts₁, hfound, h⟩ := h
  rcases hpriority : optional (Surface.priority n) ts₁ with ⟨priority, ts₂⟩
  rcases hterms : further n (· = .comma) (term n) ts₂ with ⟨terms, ts₃⟩
  simp only [hpriority, hterms] at h
  cases h
  exact ⟨found, ts₁, priority, ts₂, terms, hfound, hpriority, hterms, rfl⟩

theorem optimizeElement_steps {e : OptimizeElement} (h : optimizeElement n ts = some (e, rest)) :
    ∃ w left found stop, weight n ts = some (w, left) ∧ condition? n left = ((found, stop), rest) ∧
      e = ⟨⟨beginOf ts, stop⟩, w, found⟩ := by
  simp only [optimizeElement, Option.bind_eq_bind, Option.bind_eq_some_iff, Prod.exists] at h
  obtain ⟨w, left, hweight, h⟩ := h
  rcases hcondition : condition? n left with ⟨⟨found, stop⟩, last⟩
  rw [hcondition] at h
  cases h
  exact ⟨w, left, found, stop, hweight, hcondition, rfl⟩

theorem optimizeStatement_steps (h : optimizeStatement n ts = some (s, rest)) :
    ∃ word ts₁ opened ts₂ elements ts₃ closed ts₄ stop,
      keywordWith (fun k => k = .minimize ∨ k = .maximize) ts = some (word, ts₁) ∧
      punct .openBrace ts₁ = some (opened, ts₂) ∧
      semicolons n (optimizeElement n) ts₂ = (elements, ts₃) ∧
      punct .closeBrace ts₃ = some (closed, ts₄) ∧ endDot ts₄ = some (stop, rest) ∧
      s = .optimize ⟨beginOf ts, stop⟩ (word = .maximize) elements := by
  simp only [optimizeStatement, Option.bind_eq_bind, Option.bind_eq_some_iff, Prod.exists] at h
  obtain ⟨word, ts₁, hword, opened, ts₂, hopening, h⟩ := h
  rcases helements : semicolons n (optimizeElement n) ts₂ with ⟨elements, ts₃⟩
  simp only [helements] at h
  obtain ⟨closed, ts₄, hclosing, stop, ts₅, hdot, h⟩ := h
  cases h
  exact ⟨word, ts₁, opened, ts₂, elements, ts₃, closed, ts₄, stop, hword, hopening,
    helements, hclosing, hdot, rfl⟩

theorem weakStatement_steps (h : weakStatement n ts = some (s, rest)) :
    ∃ arrow ts₁ found ts₂ dot ts₃ opened ts₄ w ts₅ stop, punct .weakIf ts = some (arrow, ts₁) ∧
      body n ts₁ = some (found, ts₂) ∧ endDot ts₂ = some (dot, ts₃) ∧
      punct .openBracket ts₃ = some (opened, ts₄) ∧ weight n ts₄ = some (w, ts₅) ∧
      punct .closeBracket ts₅ = some (stop, rest) ∧ s = .weak ⟨beginOf ts, stop⟩ found w := by
  simp only [weakStatement, Option.bind_eq_bind, Option.bind_eq_some_iff, Prod.exists] at h
  obtain ⟨arrow, ts₁, harrow, found, ts₂, hbody, dot, ts₃, hdot, opened, ts₄, hopening, w, ts₅,
    hweight, stop, ts₆, hclosing, h⟩ := h
  cases h
  exact ⟨arrow, ts₁, found, ts₂, dot, ts₃, opened, ts₄, w, ts₅, stop, harrow, hbody, hdot, hopening,
    hweight, hclosing, rfl⟩

theorem arrowBody_steps {found : List BodyElement} (h : arrowBody n ts = some (found, rest)) :
    ∃ arrow left written, punct .ifThen ts = some (arrow, left) ∧
      optional (body n) left = (written, rest) ∧ found = written.getD [] := by
  simp only [arrowBody, Option.bind_eq_bind, Option.bind_eq_some_iff, Prod.exists] at h
  obtain ⟨arrow, left, harrow, h⟩ := h
  rcases hbody : optional (body n) left with ⟨written, last⟩
  rw [hbody] at h
  cases h
  exact ⟨arrow, left, written, harrow, hbody, rfl⟩

theorem headedRule_steps (h : headedRule n ts = some (s, rest)) :
    ∃ first ts₁ written ts₂ stop, head n ts = some (first, ts₁) ∧
      optional (arrowBody n) ts₁ = (written, ts₂) ∧
      endDot ts₂ = some (stop, rest) ∧
      s = .rule ⟨beginOf ts, stop⟩ (some first) (written.getD []) := by
  simp only [headedRule, Option.bind_eq_bind, Option.bind_eq_some_iff, Prod.exists] at h
  obtain ⟨first, ts₁, hhead, h⟩ := h
  rcases hbody : optional (arrowBody n) ts₁ with ⟨written, ts₂⟩
  simp only [hbody] at h
  obtain ⟨stop, ts₃, hdot, h⟩ := h
  cases h
  exact ⟨first, ts₁, written, ts₂, stop, hhead, hbody, hdot, rfl⟩

theorem constraintRule_steps (h : constraintRule n ts = some (s, rest)) :
    ∃ found left stop, arrowBody n ts = some (found, left) ∧ endDot left = some (stop, rest) ∧
      s = .rule ⟨beginOf ts, stop⟩ none found := by
  simp only [constraintRule, Option.bind_eq_bind, Option.bind_eq_some_iff, Prod.exists] at h
  obtain ⟨found, left, hbody, stop, last, hdot, h⟩ := h
  cases h
  exact ⟨found, left, stop, hbody, hdot, rfl⟩

theorem statementsFrom_eq_map (k : Nat) (ts : List Token) (done : List Statement) :
    statementsFrom n k ts done = (statementsFrom n k ts []).map
      fun more => done.reverse ++ more := by
  induction k generalizing ts done with
  | zero => rfl
  | succ k ih =>
    unfold statementsFrom
    split
    · simp
    · split
      · rename_i s rest hstatement
        rw [ih rest (s :: done), ih rest [s], Option.map_map]
        congr 1
        funext more
        simp
      · rfl

/-- Nothing is left but the end of the text, or a statement is read and others behind it. -/
theorem statementsFrom_steps {k : Nat} {found : List Statement}
    (h : statementsFrom n (k + 1) ts [] = some found) :
    (∃ begin stop more, ts = ⟨.finish, begin, stop⟩ :: more ∧ found = []) ∨
      ∃ s left more, statement n ts = some (s, left) ∧ statementsFrom n k left [] = some more ∧
        found = s :: more := by
  unfold statementsFrom at h
  split at h
  · cases h
    exact .inl ⟨_, _, _, rfl, rfl⟩
  · split at h
    · rw [statementsFrom_eq_map, Option.map_eq_some_iff] at h
      obtain ⟨more, hmore, rfl⟩ := h
      exact .inr ⟨_, _, more, ‹_›, hmore, rfl⟩
    · cases h

end Statements

end AspAtlas.Surface
