import AspAtlas.Surface.Token
/-!
Concrete syntax of programs: one type per construct, so that what the grammar does not allow cannot
be written down. Constructs keep the span of text they were read from.
-/
namespace AspAtlas.Surface

/-- Where a construct starts and ends. -/
structure Span where
  begin : Position
  stop : Position
deriving DecidableEq, Repr, Inhabited

mutual

/-- A flat chain of factors joined by arithmetic symbols. -/
inductive Term where
  | chain (span : Span) (first : Factor) (rest : List (Punct × Factor))

/-- An operand of a chain. -/
inductive Factor where
  | negation (span : Span) (inner : Factor)
  | tuple (span : Span) (pool : Option Pool)
  | absolute (span : Span) (inner : Term)
  | function (span : Span) (name : String) (pool : Option Pool)
  | var (span : Span) (name : String)
  | constant (span : Span) (text : String)

/-- Alternative argument lists. -/
inductive Pool where
  | alternatives (first : Terms) (others : List Terms)

/-- One or more terms. -/
inductive Terms where
  | list (span : Span) (first : Term) (rest : List Term)

end

/-- The span of a chain. -/
def Term.span : Term → Span
  | chain span _ _ => span

/-- The span of an operand. -/
def Factor.span : Factor → Span
  | negation span _ | tuple span _ | absolute span _ | function span _ _ | var span _
  | constant span _ => span

/-- The span of a list of terms. -/
def Terms.span : Terms → Span
  | list span _ _ => span

/-- A predicate with its arguments, possibly classically negated. -/
structure Atom where
  span : Span
  negated : Bool
  name : String
  pool : Option Pool

/-- What a literal asserts. -/
inductive Assertion where
  | boolean (span : Span) (value : Keyword)
  | comparison (span : Span) (left : Term) (operator : Punct) (right : Term)
  | symbolic (atom : Atom)

/-- The span of an assertion. -/
def Assertion.span : Assertion → Span
  | boolean span _ | comparison span _ _ _ => span
  | symbolic atom => atom.span

/-- Default negation: none, once or twice. -/
inductive Negations where
  | none
  | once
  | twice
deriving DecidableEq, Repr

/-- An assertion under default negation. -/
structure Literal where
  span : Span
  negations : Negations
  assertion : Assertion

/-- A literal with its condition, empty when there is none. -/
structure Conditional where
  span : Span
  literal : Literal
  condition : List Literal

/-- A bound beside an aggregate. -/
structure Bound where
  span : Span
  operator : Option Punct
  term : Term

/-- An element of a body aggregate: terms, a condition or both. -/
structure AggregateElement where
  span : Span
  terms : Option Terms
  condition : List Literal

/-- A body aggregate. -/
structure Aggregate where
  span : Span
  negations : Negations
  left : Option Bound
  function : Keyword
  elements : List AggregateElement
  right : Option Bound

/-- An element of a rule body. -/
inductive BodyElement where
  | conditional (element : Conditional)
  | aggregate (element : Aggregate)

/-- A choice of atoms. -/
structure Choice where
  span : Span
  left : Option Bound
  elements : List Conditional
  right : Option Bound

/-- A rule head. -/
inductive Head where
  | choice (choice : Choice)
  | disjunction (span : Span) (first : Conditional) (rest : List Conditional)

/-- A weight with its priority and tuple. -/
structure Weight where
  span : Span
  weight : Term
  priority : Option Term
  terms : List Term

/-- An element of an optimisation statement. -/
structure OptimizeElement where
  span : Span
  weight : Weight
  condition : List Literal

/-- A top-level statement. The target of an include and the arity of a signature are kept as
written. -/
inductive Statement where
  | includes (span : Span) (target : String)
  | constant (span : Span) (name : String) (value : Term)
  | defined (span : Span) (name digits : String)
  | showAll (span : Span)
  | showSignature (span : Span) (name digits : String)
  | showTerm (span : Span) (term : Term) (body : List BodyElement)
  | program (span : Span) (name : String)
  | external (span : Span) (atom : Atom) (condition : List Literal) (type : Option Term)
  | optimize (span : Span) (maximize : Bool) (elements : List OptimizeElement)
  | weak (span : Span) (body : List BodyElement) (weight : Weight)
  | rule (span : Span) (head : Option Head) (body : List BodyElement)

end AspAtlas.Surface
