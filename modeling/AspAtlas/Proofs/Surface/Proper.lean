import AspAtlas.Proofs.Surface.Consumption
import AspAtlas.Proofs.Surface.Written
/-!
What readers give. From the units of a text they make syntax whose words, constants and operators
are such units; no reader gives anything else.
-/
namespace AspAtlas.Surface

section Syntax

mutual

/-- Terms of spelled words and constants, joined by arithmetic symbols. -/
def Term.Proper : Term → Prop
  | .chain _ first rest => first.Proper ∧ ProperOperands rest

/-- Operands behind arithmetic symbols. -/
def ProperOperands : List (Punct × Factor) → Prop
  | [] => True
  | (operator, operand) :: rest =>
    operator.isArithmetic = true ∧ operand.Proper ∧ ProperOperands rest

/-- An operand of spelled words and constants. -/
def Factor.Proper : Factor → Prop
  | .negation _ inner => inner.Proper
  | .tuple _ none => True
  | .tuple _ (some pool) => pool.Proper
  | .absolute _ inner => inner.Proper
  | .function _ name none => (Lexeme.identifier name).Spelled
  | .function _ name (some pool) => (Lexeme.identifier name).Spelled ∧ pool.Proper
  | .var _ name => (Lexeme.var name).Spelled
  | .constant _ text => ∃ l : Lexeme, l.standsAlone = true ∧ l.Spelled ∧ l.chars = text.toList

/-- Lists of such terms. -/
def Pool.Proper : Pool → Prop
  | .alternatives first others => first.Proper ∧ ProperLists others

/-- Further lists of such terms. -/
def ProperLists : List Terms → Prop
  | [] => True
  | terms :: rest => terms.Proper ∧ ProperLists rest

/-- Such terms in a row. -/
def Terms.Proper : Terms → Prop
  | .list _ first rest => first.Proper ∧ ProperTerms rest

/-- Further such terms in a row. -/
def ProperTerms : List Term → Prop
  | [] => True
  | term :: rest => term.Proper ∧ ProperTerms rest

end

theorem properOperands_iff {rest : List (Punct × Factor)} :
    ProperOperands rest ↔ ∀ x ∈ rest, x.1.isArithmetic = true ∧ x.2.Proper := by
  induction rest with
  | nil => simp [ProperOperands]
  | cons x rest ih =>
    obtain ⟨operator, operand⟩ := x
    simp [ProperOperands, ih, and_assoc]

theorem properLists_iff {rest : List Terms} : ProperLists rest ↔ ∀ x ∈ rest, x.Proper := by
  induction rest with
  | nil => simp [ProperLists]
  | cons x rest ih => simp [ProperLists, ih]

theorem properTerms_iff {rest : List Term} : ProperTerms rest ↔ ∀ x ∈ rest, x.Proper := by
  induction rest with
  | nil => simp [ProperTerms]
  | cons x rest ih => simp [ProperTerms, ih]

/-- A predicate with a spelled name and proper arguments. -/
structure Atom.Proper (a : Atom) : Prop where
  name : (Lexeme.identifier a.name).Spelled
  pool : ∀ pool ∈ a.pool, pool.Proper

/-- A truth value, a comparison or a predicate. -/
def Assertion.Proper : Assertion → Prop
  | .boolean _ value => value = .truth ∨ value = .falsity
  | .comparison _ left operator right => left.Proper ∧ operator.isComparison = true ∧ right.Proper
  | .symbolic atom => atom.Proper

/-- A proper assertion. The word that negates is a predicate only where it cannot negate. -/
structure Literal.Proper (l : Literal) : Prop where
  assertion : l.assertion.Proper
  notName : ∀ atom, l.assertion = .symbolic atom → atom.negated = false → atom.name = "not" →
    l.negations = .twice

structure Conditional.Proper (c : Conditional) : Prop where
  literal : c.literal.Proper
  condition : ∀ l ∈ c.condition, l.Proper

structure Bound.Proper (b : Bound) : Prop where
  operator : ∀ s ∈ b.operator, s.isComparison = true
  term : b.term.Proper

/-- An element has terms or a condition. -/
structure AggregateElement.Proper (e : AggregateElement) : Prop where
  terms : ∀ ts ∈ e.terms, ts.Proper
  condition : ∀ l ∈ e.condition, l.Proper
  nonempty : e.terms = none → e.condition ≠ []

structure Aggregate.Proper (a : Aggregate) : Prop where
  left : ∀ b ∈ a.left, b.Proper
  function : isAggregateFunction a.function = true
  elements : ∀ e ∈ a.elements, e.Proper
  right : ∀ b ∈ a.right, b.Proper

def BodyElement.Proper : BodyElement → Prop
  | .conditional element => element.Proper
  | .aggregate element => element.Proper

structure Choice.Proper (c : Choice) : Prop where
  left : ∀ b ∈ c.left, b.Proper
  elements : ∀ e ∈ c.elements, e.Proper
  right : ∀ b ∈ c.right, b.Proper

def Head.Proper : Head → Prop
  | .choice c => c.Proper
  | .disjunction _ first rest => first.Proper ∧ ∀ e ∈ rest, e.Proper

structure Weight.Proper (w : Weight) : Prop where
  weight : w.weight.Proper
  priority : ∀ t ∈ w.priority, t.Proper
  terms : ∀ t ∈ w.terms, t.Proper

structure OptimizeElement.Proper (e : OptimizeElement) : Prop where
  weight : e.weight.Proper
  condition : ∀ l ∈ e.condition, l.Proper

/-- A statement of proper parts. -/
def Statement.Proper : Statement → Prop
  | .constant _ _ value => value.Proper
  | .showTerm _ term body => term.Proper ∧ ∀ e ∈ body, e.Proper
  | .external _ atom condition type =>
    atom.Proper ∧ (∀ l ∈ condition, l.Proper) ∧ ∀ t ∈ type, t.Proper
  | .optimize _ _ elements => ∀ e ∈ elements, e.Proper
  | .weak _ body weight => (∀ e ∈ body, e.Proper) ∧ weight.Proper
  | .rule _ head body => (∀ h ∈ head, h.Proper) ∧ ∀ e ∈ body, e.Proper
  | .includes .. | .defined .. | .showAll .. | .showSignature .. | .program .. => True

end Syntax

/-- Tokens of spelled units, but for stray characters and the end. -/
def Sound (ts : List Token) : Prop :=
  ∀ t ∈ ts, (∀ d, t.lexeme ≠ .stray d) → t.lexeme ≠ .finish → t.lexeme.Spelled

/-- What a reader takes from sound tokens has a property. -/
def Gives {α : Type} (item : Reader α) (P : α → Prop) : Prop :=
  ∀ ⦃ts a rest⦄, Sound ts → item ts = some (a, rest) → P a ∧ Sound rest

variable {α β : Type} {n : Nat} {ts rest : List Token} {item : Reader α} {P : α → Prop}
    {Q : β → Prop}

theorem Sound.tail {t : Token} (h : Sound (t :: ts)) : Sound ts :=
  fun u hu => h u (List.mem_cons_of_mem t hu)

theorem Sound.of_suffix (h : Sound ts) (hrest : rest <:+ ts) : Sound rest :=
  fun t ht => h t (hrest.subset ht)

theorem sound_lex (p : Position) (cs : List Char) : Sound (lex p cs) :=
  fun _ ht => spelled_of_mem_lex ht

section Combinators

theorem Gives.or {other : Reader α} (h : Gives item P) (hother : Gives other P) :
    Gives (fun ts => item ts <|> other ts) P := by
  intro ts a rest hts hread
  rcases orElse_steps hread with hread | ⟨-, hread⟩
  · exact h hts hread
  · exact hother hts hread

theorem Gives.map {f : α → β} (h : Gives item P) (hf : ∀ a, P a → Q (f a)) :
    Gives (fun ts => (item ts).map fun x => (f x.1, x.2)) Q := by
  intro ts b rest hts hread
  obtain ⟨a, hitem, rfl⟩ := map_steps hread
  obtain ⟨ha, hrest⟩ := h hts hitem
  exact ⟨hf a ha, hrest⟩

theorem punct_gives (symbol : Punct) : Gives (punct symbol) fun _ => True := by
  intro ts stop rest hts h
  obtain ⟨begin, rfl⟩ := punct_steps h
  exact ⟨trivial, hts.tail⟩

theorem punctWith_gives (accept : Punct → Bool) :
    Gives (punctWith accept) fun s => accept s = true := by
  intro ts symbol rest hts h
  obtain ⟨begin, stop, rfl, haccept⟩ := punctWith_steps h
  exact ⟨haccept, hts.tail⟩

theorem keyword_gives (word : Keyword) : Gives (keyword word) fun _ => True := by
  intro ts found rest hts h
  obtain ⟨begin, stop, rfl⟩ := keyword_steps h
  exact ⟨trivial, hts.tail⟩

theorem keywordWith_gives (accept : Keyword → Bool) :
    Gives (keywordWith accept) fun word => accept word = true := by
  intro ts word rest hts h
  obtain ⟨begin, stop, rfl, haccept⟩ := keywordWith_steps h
  exact ⟨haccept, hts.tail⟩

theorem identifier_gives : Gives identifier fun name => (Lexeme.identifier name).Spelled := by
  intro ts text rest hts h
  obtain ⟨begin, stop, rfl⟩ := identifier_steps h
  exact ⟨hts _ List.mem_cons_self (by simp) (by simp), hts.tail⟩

/-- A dot is all that is left of two. -/
theorem endDot_gives : Gives endDot fun _ => True := by
  intro ts stop rest hts h
  rcases endDot_steps h with ⟨begin, rfl⟩ | ⟨begin, last, more, rfl, rfl, rfl⟩
  · exact ⟨trivial, hts.tail⟩
  · refine ⟨trivial, fun t ht => ?_⟩
    rcases List.mem_cons.mp ht with rfl | ht
    · exact fun _ _ => punct_spelled .dot
    · exact hts.tail t ht

theorem Gives.optional {x : Option α} (h : Gives item P) (hts : Sound ts)
    (hread : optional item ts = (x, rest)) : (∀ a ∈ x, P a) ∧ Sound rest := by
  rcases optional_steps hread with ⟨a, hitem, rfl⟩ | ⟨-, rfl, rfl⟩
  · obtain ⟨ha, hrest⟩ := h hts hitem
    exact ⟨by simpa using ha, hrest⟩
  · exact ⟨by simp, hts⟩

theorem Gives.many {more : List α} (h : Gives item P) (hts : Sound ts)
    (hread : many item n ts = (more, rest)) : (∀ a ∈ more, P a) ∧ Sound rest := by
  induction n generalizing ts more with
  | zero =>
    cases hread
    exact ⟨by simp, hts⟩
  | succ n ih =>
    rcases many_steps hread with ⟨a, left, others, hitem, hmany, rfl⟩ | ⟨-, rfl, rfl⟩
    · obtain ⟨ha, hleft⟩ := h hts hitem
      obtain ⟨hothers, hrest⟩ := ih hleft hmany
      exact ⟨List.forall_mem_cons.mpr ⟨ha, hothers⟩, hrest⟩
    · exact ⟨by simp, hts⟩

theorem Gives.after (h : Gives item P) (separator : Punct → Bool) :
    Gives (after separator item) P := by
  intro ts a rest hts hread
  obtain ⟨symbol, left, hsymbol, hitem⟩ := after_steps hread
  exact h (punctWith_gives separator hts hsymbol).2 hitem

theorem Gives.further {separator : Punct → Bool} {more : List α} (h : Gives item P) (hts : Sound ts)
    (hread : further n separator item ts = (more, rest)) : (∀ a ∈ more, P a) ∧ Sound rest :=
  (h.after separator).many hts hread

theorem Gives.semicolons {more : List α} (h : Gives item P) (hts : Sound ts)
    (hread : semicolons n item ts = (more, rest)) : (∀ a ∈ more, P a) ∧ Sound rest := by
  rcases semicolons_steps hread with ⟨first, left, others, hfirst, hfurther, rfl⟩ | ⟨-, rfl, rfl⟩
  · obtain ⟨ha, hleft⟩ := h hts hfirst
    obtain ⟨hothers, hrest⟩ := h.further hleft hfurther
    exact ⟨List.forall_mem_cons.mpr ⟨ha, hothers⟩, hrest⟩
  · exact ⟨by simp, hts⟩

end Combinators

section Terms

variable {term : Reader Term} {factor : Reader Factor}

theorem termsOf_gives (h : Gives term Term.Proper) : Gives (termsOf n term) Terms.Proper := by
  intro ts terms rest hts hread
  obtain ⟨first, left, more, hfirst, hmore, rfl⟩ := termsOf_steps hread
  obtain ⟨hfirst, hrest'⟩ := h hts hfirst
  obtain ⟨hmore, hrest⟩ := h.further hrest' hmore
  exact ⟨⟨hfirst, properTerms_iff.mpr hmore⟩, hrest⟩

theorem poolOf_gives (h : Gives term Term.Proper) : Gives (poolOf n term) Pool.Proper := by
  intro ts pool rest hts hread
  obtain ⟨first, left, more, hfirst, hmore, rfl⟩ := poolOf_steps hread
  have hterms : Gives (termsOf n term) Terms.Proper := termsOf_gives h
  obtain ⟨hfirst, hrest'⟩ := hterms hts hfirst
  obtain ⟨hmore, hrest⟩ := hterms.further hrest' hmore
  exact ⟨⟨hfirst, properLists_iff.mpr hmore⟩, hrest⟩

theorem argumentsOf_gives (h : Gives term Term.Proper) :
    Gives (argumentsOf n term) fun found => ∀ pool ∈ found.1, pool.Proper := by
  intro ts ⟨pool, stop⟩ rest hts hread
  obtain ⟨opened, ts₁, ts₂, hopening, hpool, hclosing⟩ := argumentsOf_steps hread
  have hrest₁ := (punct_gives .opening hts hopening).2
  obtain ⟨hpool, hrest₂⟩ := (poolOf_gives h).optional hrest₁ hpool
  exact ⟨hpool, (punct_gives .closing hrest₂ hclosing).2⟩

theorem tupleOf_gives (h : Gives term Term.Proper) : Gives (tupleOf n term) Factor.Proper := by
  intro ts a rest hts hread
  obtain ⟨opened, ts₁, pool, ts₂, comma, ts₃, stop, hopening, hpool, hcomma, hclosing, rfl⟩ :=
    tupleOf_steps hread
  have hrest₁ := (punct_gives .opening hts hopening).2
  obtain ⟨hpool, hrest₂⟩ := (poolOf_gives h).optional hrest₁ hpool
  obtain ⟨-, hrest₃⟩ := (punct_gives .comma).optional hrest₂ hcomma
  refine ⟨?_, (punct_gives .closing hrest₃ hclosing).2⟩
  cases pool with
  | none => trivial
  | some pool => exact hpool pool rfl

theorem absoluteOf_gives (h : Gives term Term.Proper) : Gives (absoluteOf term) Factor.Proper := by
  intro ts a rest hts hread
  obtain ⟨opened, ts₁, inner, ts₂, stop, hopening, hinner, hclosing, rfl⟩ := absoluteOf_steps hread
  obtain ⟨hinner, hrest₂⟩ := h (punct_gives .bar hts hopening).2 hinner
  exact ⟨hinner, (punct_gives .bar hrest₂ hclosing).2⟩

theorem functionOf_gives (h : Gives term Term.Proper) :
    Gives (functionOf n term) Factor.Proper := by
  intro ts a rest hts hread
  obtain ⟨name, left, hname, hfound⟩ := functionOf_steps hread
  obtain ⟨hspelled, hrest₁⟩ := identifier_gives hts hname
  rcases hfound with ⟨pool, stop, harguments, rfl⟩ | ⟨-, rfl, rfl⟩
  · obtain ⟨hpool, hrest⟩ := argumentsOf_gives h hrest₁ harguments
    refine ⟨?_, hrest⟩
    cases pool with
    | none => exact hspelled
    | some pool => exact ⟨hspelled, hpool pool rfl⟩
  · exact ⟨hspelled, hrest₁⟩

theorem simpleFactor_gives : Gives simpleFactor Factor.Proper := by
  intro ts a rest hts hread
  obtain ⟨lexeme, begin, stop, rfl, hfound⟩ := simpleFactor_steps hread
  have hspelled := hts _ List.mem_cons_self
  rcases hfound with ⟨text, rfl, rfl⟩ | ⟨text, rfl | rfl, rfl⟩ | ⟨word, hword, rfl, rfl⟩
  · exact ⟨hspelled (by simp) (by simp), hts.tail⟩
  · exact ⟨⟨_, rfl, hspelled (by simp) (by simp), rfl⟩, hts.tail⟩
  · exact ⟨⟨_, rfl, hspelled (by simp) (by simp), rfl⟩, hts.tail⟩
  · exact ⟨⟨.keyword word, by simpa [Lexeme.standsAlone] using hword, keyword_spelled word,
      rfl⟩, hts.tail⟩

theorem negationOf_gives (h : Gives factor Factor.Proper) :
    Gives (negationOf factor) Factor.Proper := by
  intro ts a rest hts hread
  obtain ⟨minus, left, inner, hminus, hinner, rfl⟩ := negationOf_steps hread
  obtain ⟨hproper, hrest⟩ := h (punct_gives .minus hts hminus).2 hinner
  exact ⟨hproper, hrest⟩

theorem operandOf_gives (h : Gives factor Factor.Proper) :
    Gives (operandOf factor) fun x => x.1.isArithmetic = true ∧ x.2.Proper := by
  intro ts ⟨operator, operand⟩ rest hts hread
  obtain ⟨left, hoperator, hoperand⟩ := operandOf_steps hread
  obtain ⟨hoperator, hrest₁⟩ := punctWith_gives Punct.isArithmetic hts hoperator
  obtain ⟨hoperand, hrest⟩ := h hrest₁ hoperand
  exact ⟨⟨hoperator, hoperand⟩, hrest⟩

theorem chainOf_gives (h : Gives factor Factor.Proper) : Gives (chainOf n factor) Term.Proper := by
  intro ts a rest hts hread
  obtain ⟨first, left, more, hfirst, hmore, rfl⟩ := chainOf_steps hread
  obtain ⟨hfirst, hrest₁⟩ := h hts hfirst
  obtain ⟨hmore, hrest⟩ := (operandOf_gives h).many hrest₁ hmore
  exact ⟨⟨hfirst, properOperands_iff.mpr hmore⟩, hrest⟩

end Terms

theorem term_factor_gives (n : Nat) :
    Gives (term n) Term.Proper ∧ Gives (factor n) Factor.Proper := by
  induction n with
  | zero =>
    constructor
    · intro ts a rest _ hread
      simp [term] at hread
    · intro ts a rest _ hread
      simp [factor] at hread
  | succ n ih =>
    obtain ⟨hterm, hfactor⟩ := ih
    constructor
    · rw [term]
      exact chainOf_gives hfactor
    · rw [factor]
      exact (negationOf_gives hfactor).or <| (tupleOf_gives hterm).or <|
        (absoluteOf_gives hterm).or <| (functionOf_gives hterm).or simpleFactor_gives

theorem term_gives (n : Nat) : Gives (term n) Term.Proper := (term_factor_gives n).1

end AspAtlas.Surface
