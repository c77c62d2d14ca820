import AspAtlas.Proofs.Surface.Steps
import Mathlib.Data.List.Infix
/-!
Readers take tokens off the front and leave the others as they are. The dot that ends a statement
is the one exception: of two dots in a row it leaves the second as a token of its own.
-/
namespace AspAtlas.Surface

/-- Some tokens are what is left of others, of which one at least was taken. -/
def Left (ts rest : List Token) : Prop := ∃ t used, ts = t :: used ++ rest

namespace Left

variable {t : Token} {ts rest left : List Token}

theorem cons : Left (t :: ts) ts := ⟨t, [], rfl⟩

theorem suffix (h : Left ts rest) : rest <:+ ts := by
  obtain ⟨t, used, rfl⟩ := h
  exact List.suffix_append _ _

theorem length_lt (h : Left ts rest) : rest.length < ts.length := by
  obtain ⟨t, used, rfl⟩ := h
  simp only [List.length_append, List.length_cons]
  omega

/-- What is left of what is left. -/
theorem of_suffix (h : Left ts rest) (hleft : left <:+ rest) : Left ts left := by
  obtain ⟨t, used, rfl⟩ := h
  obtain ⟨more, rfl⟩ := hleft
  exact ⟨t, used ++ more, by simp⟩

theorem of_suffix_left (hrest : rest <:+ ts) (h : Left rest left) : Left ts left := by
  obtain ⟨t, used, rfl⟩ := h
  obtain ⟨more, rfl⟩ := hrest
  cases more with
  | nil => exact ⟨t, used, rfl⟩
  | cons u more => exact ⟨u, more ++ t :: used, by simp⟩

theorem trans (h : Left ts rest) (hleft : Left rest left) : Left ts left := h.of_suffix hleft.suffix

end Left

/-- A reader takes tokens off the front, one at least. -/
def Consumes {α : Type} (reader : Reader α) : Prop :=
  ∀ ⦃ts : List Token⦄ ⦃a : α⦄ ⦃rest : List Token⦄, reader ts = some (a, rest) → Left ts rest

variable {α β : Type} {item : Reader α} {n : Nat} {ts rest : List Token}

theorem Consumes.or {other : Reader α} (h : Consumes item) (hother : Consumes other) :
    Consumes fun ts => item ts <|> other ts := by
  intro ts a rest hread
  rcases orElse_steps hread with hitem | ⟨-, hread⟩
  · exact h hitem
  · exact hother hread

theorem Consumes.map {f : α → β} (h : Consumes item) :
    Consumes fun ts => (item ts).map fun x => (f x.1, x.2) := by
  intro ts b rest hread
  obtain ⟨a, hitem, -⟩ := map_steps hread
  exact h hitem

theorem punct_consumes (symbol : Punct) : Consumes (punct symbol) := by
  intro ts stop rest h
  obtain ⟨begin, rfl⟩ := punct_steps h
  exact .cons

theorem punctWith_consumes (accept : Punct → Bool) : Consumes (punctWith accept) := by
  intro ts symbol rest h
  obtain ⟨begin, stop, rfl, -⟩ := punctWith_steps h
  exact .cons

theorem keyword_consumes (word : Keyword) : Consumes (keyword word) := by
  intro ts found rest h
  obtain ⟨begin, stop, rfl⟩ := keyword_steps h
  exact .cons

theorem keywordWith_consumes (accept : Keyword → Bool) : Consumes (keywordWith accept) := by
  intro ts word rest h
  obtain ⟨begin, stop, rfl, -⟩ := keywordWith_steps h
  exact .cons

theorem identifier_consumes : Consumes identifier := by
  intro ts text rest h
  obtain ⟨begin, stop, rfl⟩ := identifier_steps h
  exact .cons

theorem number_consumes : Consumes number := by
  intro ts digits rest h
  obtain ⟨begin, stop, rfl⟩ := number_steps h
  exact .cons

theorem optional_suffix {x : Option α} (h : Consumes item) (hread : optional item ts = (x, rest)) :
    rest <:+ ts := by
  rcases optional_steps hread with ⟨a, hitem, -⟩ | ⟨-, -, rfl⟩
  · exact (h hitem).suffix
  · exact List.suffix_refl _

theorem many_suffix {more : List α} (h : Consumes item) (hread : many item n ts = (more, rest)) :
    rest <:+ ts := by
  induction n generalizing ts more with
  | zero =>
    cases hread
    exact List.suffix_refl _
  | succ n ih =>
    rcases many_steps hread with ⟨a, left, others, hitem, hmany, -⟩ | ⟨-, -, rfl⟩
    · exact ((h hitem).of_suffix (ih hmany)).suffix
    · exact List.suffix_refl _

theorem after_consumes (h : Consumes item) (separator : Punct → Bool) :
    Consumes (after separator item) := by
  intro ts a rest hread
  obtain ⟨symbol, left, hsymbol, hitem⟩ := after_steps hread
  exact (punctWith_consumes separator hsymbol).trans (h hitem)

theorem further_suffix {separator : Punct → Bool} {more : List α} (h : Consumes item)
    (hread : further n separator item ts = (more, rest)) : rest <:+ ts :=
  many_suffix (after_consumes h separator) hread

theorem semicolons_suffix {more : List α} (h : Consumes item)
    (hread : semicolons n item ts = (more, rest)) : rest <:+ ts := by
  rcases semicolons_steps hread with ⟨first, left, others, hfirst, hfurther, -⟩ | ⟨-, -, rfl⟩
  · exact ((h hfirst).of_suffix (further_suffix h hfurther)).suffix
  · exact List.suffix_refl _

section Terms

variable {term : Reader Term} {factor : Reader Factor}

theorem termsOf_consumes (h : Consumes term) : Consumes (termsOf n term) := by
  intro ts terms rest hread
  obtain ⟨first, left, more, hfirst, hmore, -⟩ := termsOf_steps hread
  exact (h hfirst).of_suffix (further_suffix h hmore)

theorem poolOf_consumes (h : Consumes term) : Consumes (poolOf n term) := by
  intro ts pool rest hread
  obtain ⟨first, left, others, hfirst, hothers, -⟩ := poolOf_steps hread
  have hterms : Consumes (termsOf n term) := termsOf_consumes h
  exact (hterms hfirst).of_suffix (further_suffix hterms hothers)

theorem argumentsOf_consumes (h : Consumes term) : Consumes (argumentsOf n term) := by
  intro ts ⟨pool, stop⟩ rest hread
  obtain ⟨opened, ts₁, ts₂, hopening, hpool, hclosing⟩ := argumentsOf_steps hread
  have hinside := (punct_consumes .opening hopening).of_suffix
    (optional_suffix (poolOf_consumes h) hpool)
  exact hinside.trans (punct_consumes .closing hclosing)

theorem tupleOf_consumes (h : Consumes term) : Consumes (tupleOf n term) := by
  intro ts a rest hread
  obtain ⟨opened, ts₁, pool, ts₂, comma, ts₃, stop, hopening, hpool, hcomma, hclosing, -⟩ :=
    tupleOf_steps hread
  have hinside := (punct_consumes .opening hopening).of_suffix
    (optional_suffix (poolOf_consumes h) hpool)
  have hcomma := hinside.of_suffix (optional_suffix (punct_consumes .comma) hcomma)
  exact hcomma.trans (punct_consumes .closing hclosing)

theorem absoluteOf_consumes (h : Consumes term) : Consumes (absoluteOf term) := by
  intro ts a rest hread
  obtain ⟨opened, ts₁, inner, ts₂, stop, hopening, hinner, hclosing, -⟩ := absoluteOf_steps hread
  exact ((punct_consumes .bar hopening).trans (h hinner)).trans (punct_consumes .bar hclosing)

theorem functionOf_consumes (h : Consumes term) : Consumes (functionOf n term) := by
  intro ts a rest hread
  obtain ⟨name, left, hname, ⟨pool, stop, harguments, -⟩ | ⟨-, rfl, -⟩⟩ := functionOf_steps hread
  · exact (identifier_consumes hname).trans (argumentsOf_consumes h harguments)
  · exact identifier_consumes hname

theorem simpleFactor_consumes : Consumes simpleFactor := by
  intro ts a rest hread
  obtain ⟨lexeme, begin, stop, rfl, -⟩ := simpleFactor_steps hread
  exact .cons

theorem negationOf_consumes (h : Consumes factor) : Consumes (negationOf factor) := by
  intro ts a rest hread
  obtain ⟨minus, left, inner, hminus, hinner, -⟩ := negationOf_steps hread
  exact (punct_consumes .minus hminus).trans (h hinner)

theorem operandOf_consumes (h : Consumes factor) : Consumes (operandOf factor) := by
  intro ts ⟨operator, operand⟩ rest hread
  obtain ⟨left, hoperator, hoperand⟩ := operandOf_steps hread
  exact (punctWith_consumes Punct.isArithmetic hoperator).trans (h hoperand)

theorem chainOf_consumes (h : Consumes factor) : Consumes (chainOf n factor) := by
  intro ts a rest hread
  obtain ⟨first, left, more, hfirst, hmore, -⟩ := chainOf_steps hread
  exact (h hfirst).of_suffix (many_suffix (operandOf_consumes h) hmore)

end Terms

theorem term_factor_consumes (n : Nat) : Consumes (term n) ∧ Consumes (factor n) := by
  induction n with
  | zero =>
    constructor
    · intro ts a rest hread
      simp [term] at hread
    · intro ts a rest hread
      simp [factor] at hread
  | succ n ih =>
    obtain ⟨hterm, hfactor⟩ := ih
    constructor
    · rw [term]
      exact chainOf_consumes hfactor
    · rw [factor]
      exact (negationOf_consumes hfactor).or <| (tupleOf_consumes hterm).or <|
        (absoluteOf_consumes hterm).or <| (functionOf_consumes hterm).or simpleFactor_consumes

theorem term_consumes (n : Nat) : Consumes (term n) := (term_factor_consumes n).1

section Literals

theorem negator_consumes : Consumes negator := by
  intro ts a rest h
  obtain ⟨begin, stop, rfl⟩ := negator_steps h
  exact .cons

theorem negations_suffix {sign : Negations} (h : negations ts = (sign, rest)) : rest <:+ ts := by
  rcases negations_steps h with ⟨-, -, rfl⟩ | ⟨_, left, hfirst, ⟨-, -, rfl⟩ | ⟨_, hsecond, -⟩⟩
  · exact List.suffix_refl _
  · exact (negator_consumes hfirst).suffix
  · exact ((negator_consumes hfirst).trans (negator_consumes hsecond)).suffix

theorem separator_consumes : Consumes separator := by
  intro ts a rest h
  obtain ⟨stop, hcolon⟩ := separator_steps h
  exact punct_consumes .colon hcolon

theorem boolean_consumes : Consumes boolean := by
  intro ts a rest h
  obtain ⟨word, begin, stop, rfl, -⟩ := boolean_steps h
  exact .cons

theorem comparison_consumes : Consumes (comparison n) := by
  intro ts a rest h
  obtain ⟨left, ts₁, operator, ts₂, right, hleft, hoperator, hright, -⟩ := comparison_steps h
  have hfirst := (term_consumes n hleft).trans (punctWith_consumes Punct.isComparison hoperator)
  exact hfirst.trans (term_consumes n hright)

theorem atom_consumes : Consumes (atom n) := by
  intro ts a rest h
  obtain ⟨minus, ts₁, name, ts₂, hminus, hname, hrest⟩ := atom_steps h
  have hstart := (identifier_consumes hname).of_suffix_left
    (optional_suffix (punct_consumes .minus) hminus)
  rcases hrest with ⟨pool, stop, harguments, -⟩ | ⟨-, rfl, -⟩
  · exact hstart.trans (argumentsOf_consumes (term_consumes n) harguments)
  · exact hstart

theorem assertion_consumes : Consumes (assertion n) :=
  boolean_consumes.or <| comparison_consumes.or atom_consumes.map

theorem literal_consumes : Consumes (literal n) := by
  intro ts a rest h
  obtain ⟨sign, left, found, hsign, hfound, -⟩ := literal_steps h
  exact (assertion_consumes hfound).of_suffix_left (negations_suffix hsign)

theorem condition_consumes : Consumes (condition n) := by
  intro ts ⟨found, stop⟩ rest h
  obtain ⟨_, ts₁, first, ts₂, more, hcolon, hfirst, hmore, -⟩ := condition_steps h
  have hstart := (separator_consumes hcolon).trans (literal_consumes hfirst)
  exact hstart.of_suffix (further_suffix literal_consumes hmore)

theorem condition?_suffix {found : List Literal} {stop : Position}
    (h : condition? n ts = ((found, stop), rest)) : rest <:+ ts := by
  rcases condition?_steps h with hcondition | ⟨-, -, -, rfl⟩
  · exact (condition_consumes hcondition).suffix
  · exact List.suffix_refl _

theorem conditional_consumes : Consumes (conditional n) := by
  intro ts a rest h
  obtain ⟨first, left, found, stop, hfirst, hcondition, -⟩ := conditional_steps h
  exact (literal_consumes hfirst).of_suffix (condition?_suffix hcondition)

theorem leftBound_consumes : Consumes (leftBound n) := by
  intro ts a rest h
  obtain ⟨found, left, hfound, ⟨operator, hoperator, -⟩ | ⟨-, rfl, -⟩⟩ := leftBound_steps h
  · exact (term_consumes n hfound).trans (punctWith_consumes Punct.isComparison hoperator)
  · exact term_consumes n hfound

theorem rightBound_consumes : Consumes (rightBound n) := by
  intro ts a rest h
  obtain ⟨operator, left, found, hoperator, hfound, -⟩ := rightBound_steps h
  exact (term_consumes n hfound).of_suffix_left
    (optional_suffix (punctWith_consumes Punct.isComparison) hoperator)

theorem aggregateElement_consumes : Consumes (aggregateElement n) := by
  intro ts a rest h
  rcases aggregateElement_steps h with ⟨terms, left, found, stop, hterms, hcondition, -⟩ |
    ⟨-, found, stop, hcondition, -⟩
  · exact (termsOf_consumes (term_consumes n) hterms).of_suffix (condition?_suffix hcondition)
  · exact condition_consumes hcondition

theorem aggregate_consumes : Consumes (aggregate n) := by
  intro ts a rest h
  obtain ⟨sign, ts₁, left, ts₂, function, ts₃, opened, ts₄, elements, ts₅, closed, ts₆, right,
    hsign, hleft, hfunction, hopening, helements, hclosing, hright, -⟩ := aggregate_steps h
  have hbefore := (optional_suffix leftBound_consumes hleft).trans (negations_suffix hsign)
  have hword := (keywordWith_consumes isAggregateFunction hfunction).of_suffix_left hbefore
  have hinside := (hword.trans (punct_consumes .openBrace hopening)).of_suffix
    (semicolons_suffix aggregateElement_consumes helements)
  exact (hinside.trans (punct_consumes .closeBrace hclosing)).of_suffix
    (optional_suffix rightBound_consumes hright)

theorem bodyElement_consumes : Consumes (bodyElement n) :=
  aggregate_consumes.map.or conditional_consumes.map

theorem body_consumes : Consumes (body n) := by
  intro ts a rest h
  obtain ⟨first, left, more, hfirst, hmore, -⟩ := body_steps h
  exact (bodyElement_consumes hfirst).of_suffix (further_suffix bodyElement_consumes hmore)

theorem choice_consumes : Consumes (choice n) := by
  intro ts a rest h
  obtain ⟨left, ts₁, opened, ts₂, elements, ts₃, closed, ts₄, right, hleft, hopening,
    helements, hclosing, hright, -⟩ := choice_steps h
  have hbrace := (punct_consumes .openBrace hopening).of_suffix_left
    (optional_suffix leftBound_consumes hleft)
  have hinside := hbrace.of_suffix (semicolons_suffix conditional_consumes helements)
  exact (hinside.trans (punct_consumes .closeBrace hclosing)).of_suffix
    (optional_suffix rightBound_consumes hright)

theorem disjunction_consumes : Consumes (disjunction n) := by
  intro ts a rest h
  obtain ⟨first, left, more, hfirst, hmore, -⟩ := disjunction_steps h
  exact (conditional_consumes hfirst).of_suffix (further_suffix conditional_consumes hmore)

theorem head_consumes : Consumes (head n) := choice_consumes.map.or disjunction_consumes

end Literals

section Statements

theorem parameterNames_consumes : Consumes (parameterNames n) := by
  intro ts a rest h
  obtain ⟨opened, left, closed, hopening, hnames⟩ := parameterNames_steps h
  have hinside := punct_consumes .opening hopening
  rcases hnames with ⟨name, ts₁, more, ts₂, hname, hmore, hclosing⟩ | ⟨-, hclosing⟩
  · have hnames := (identifier_consumes hname).of_suffix (further_suffix identifier_consumes hmore)
    exact (hinside.trans hnames).trans (punct_consumes .closing hclosing)
  · exact hinside.trans (punct_consumes .closing hclosing)

theorem separatedBody_consumes : Consumes (separatedBody n) := by
  intro ts a rest h
  obtain ⟨_, left, hcolon, hbody⟩ := separatedBody_steps h
  exact (separator_consumes hcolon).trans (body_consumes hbody)

theorem priority_consumes : Consumes (priority n) := by
  intro ts a rest h
  obtain ⟨sign, left, hsign, hterm⟩ := priority_steps h
  exact (punct_consumes .atSign hsign).trans (term_consumes n hterm)

theorem weight_consumes : Consumes (weight n) := by
  intro ts a rest h
  obtain ⟨found, ts₁, priority, ts₂, terms, hfound, hpriority, hterms, -⟩ := weight_steps h
  have hstart := (term_consumes n hfound).of_suffix (optional_suffix priority_consumes hpriority)
  exact hstart.of_suffix (further_suffix (term_consumes n) hterms)

theorem optimizeElement_consumes : Consumes (optimizeElement n) := by
  intro ts a rest h
  obtain ⟨w, left, found, stop, hweight, hcondition, -⟩ := optimizeElement_steps h
  exact (weight_consumes hweight).of_suffix (condition?_suffix hcondition)

theorem arrowBody_consumes : Consumes (arrowBody n) := by
  intro ts a rest h
  obtain ⟨arrow, left, written, harrow, hbody, -⟩ := arrowBody_steps h
  exact (punct_consumes .ifThen harrow).of_suffix (optional_suffix body_consumes hbody)

end Statements

end AspAtlas.Surface
