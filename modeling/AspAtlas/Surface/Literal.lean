import AspAtlas.Surface.Term
/-!
Reading literals, conditions, heads and bodies. `not` counts as a negation wherever one may stand,
and a condition cannot start with a minus sign.
-/
namespace AspAtlas.Surface

variable (n : Nat)

/-- The identifier that negates. -/
def negator : Reader Unit
  | ⟨.identifier "not", _, _⟩ :: ts => some ((), ts)
  | _ => none

/-- Up to two negations. -/
def negations (ts : List Token) : Negations × List Token :=
  match negator ts with
  | none => (.none, ts)
  | some (_, rest) =>
    match negator rest with
    | none => (.once, rest)
    | some (_, left) => (.twice, left)

/-- The colon before a condition; no minus sign and no tilde may come next. -/
def separator : Reader Unit := fun ts => do
  let (_, rest) ← punct .colon ts
  match rest with
  | ⟨.punct .minus, _, _⟩ :: _ => none
  | ⟨.stray '~', _, _⟩ :: _ => none
  | _ => some ((), rest)

/-- A truth value. -/
def boolean : Reader Assertion
  | ⟨.keyword word, begin, stop⟩ :: ts =>
    if word = .truth ∨ word = .falsity then some (.boolean ⟨begin, stop⟩ word, ts) else none
  | _ => none

/-- Two compared terms. -/
def comparison : Reader Assertion := fun ts => do
  let (left, rest) ← term n ts
  let (operator, rest) ← punctWith Punct.isComparison rest
  let (right, rest) ← term n rest
  some (.comparison ⟨beginOf ts, right.span.stop⟩ left operator right, rest)

/-- A predicate with its arguments. -/
def atom : Reader Atom := fun ts => do
  let (sign, rest) := optional (punct .minus) ts
  let (name, rest) ← identifier rest
  match argumentsOf n (term n) rest with
  | some ((pool, stop), left) => some (⟨⟨beginOf ts, stop⟩, sign.isSome, name, pool⟩, left)
  | none => some (⟨⟨beginOf ts, beginOf rest⟩, sign.isSome, name, none⟩, rest)

/-- What a literal asserts. -/
def assertion : Reader Assertion := fun ts =>
  boolean ts <|> comparison n ts <|> (atom n ts).map fun (a, rest) => (.symbolic a, rest)

/-- A literal. -/
def literal : Reader Literal := fun ts => do
  let (sign, rest) := negations ts
  let (assertion, rest) ← assertion n rest
  some (⟨⟨beginOf ts, assertion.span.stop⟩, sign, assertion⟩, rest)

/-- The literals of a condition, with the end of the last one. -/
def condition : Reader (List Literal × Position) := fun ts => do
  let (_, ts) ← separator ts
  let (first, rest) ← literal n ts
  let (more, left) := further n (· = .comma) (literal n) rest
  some ((first :: more, endOf (·.span.stop) more rest), left)

/-- A condition if it is there, with the end of what it completes. -/
def condition? (ts : List Token) : (List Literal × Position) × List Token :=
  match condition n ts with
  | some found => found
  | none => (([], beginOf ts), ts)

/-- A literal with its condition. -/
def conditional : Reader Conditional := fun ts => do
  let (literal, rest) ← literal n ts
  let ((condition, stop), left) := condition? n rest
  some (⟨⟨beginOf ts, stop⟩, literal, condition⟩, left)

/-- A bound on the left of an aggregate. -/
def leftBound : Reader Bound := fun ts => do
  let (term, rest) ← term n ts
  match punctWith Punct.isComparison rest with
  | some (operator, left) =>
    let stop := ((rest.head?.map Token.stop).getD (beginOf rest))
    some (⟨⟨beginOf ts, stop⟩, some operator, term⟩, left)
  | none => some (⟨⟨beginOf ts, beginOf rest⟩, none, term⟩, rest)

/-- A bound on the right of an aggregate. -/
def rightBound : Reader Bound := fun ts => do
  let (operator, rest) := optional (punctWith Punct.isComparison) ts
  let (term, left) ← term n rest
  some (⟨⟨beginOf ts, term.span.stop⟩, operator, term⟩, left)

/-- The end of an aggregate: that of its right bound, or the begin of what follows. -/
def boundEnd (right : Option Bound) (ts : List Token) : Position :=
  match right with
  | some bound => bound.span.stop
  | none => beginOf ts

/-- An element of a body aggregate. -/
def aggregateElement : Reader AggregateElement := fun ts =>
  match termsOf n (term n) ts with
  | some (terms, rest) =>
    let ((condition, stop), left) := condition? n rest
    some (⟨⟨beginOf ts, stop⟩, some terms, condition⟩, left)
  | none =>
    (condition n ts).map fun ((condition, stop), left) =>
      (⟨⟨beginOf ts, stop⟩, none, condition⟩, left)

/-- The keywords of body aggregates. -/
def isAggregateFunction (word : Keyword) : Bool :=
  word ∈ [Keyword.count, .sumPlus, .sum, .min, .max]

/-- A body aggregate. -/
def aggregate : Reader Aggregate := fun ts => do
  let (sign, rest) := negations ts
  let (left, rest) := optional (leftBound n) rest
  let (function, rest) ← keywordWith isAggregateFunction rest
  let (_, rest) ← punct .openBrace rest
  let (elements, rest) := semicolons n (aggregateElement n) rest
  let (_, rest) ← punct .closeBrace rest
  let (right, after) := optional (rightBound n) rest
  some (⟨⟨beginOf ts, boundEnd right after⟩, sign, left, function, elements, right⟩, after)

/-- An element of a body. -/
def bodyElement : Reader BodyElement := fun ts =>
  ((aggregate n ts).map fun (a, rest) => (.aggregate a, rest))
    <|> (conditional n ts).map fun (c, rest) => (.conditional c, rest)

/-- A rule body. -/
def body : Reader (List BodyElement) := fun ts => do
  let (first, rest) ← bodyElement n ts
  let (more, left) := further n (fun s => s = .comma ∨ s = .semicolon) (bodyElement n) rest
  some (first :: more, left)

/-- A choice. -/
def choice : Reader Choice := fun ts => do
  let (left, rest) := optional (leftBound n) ts
  let (_, rest) ← punct .openBrace rest
  let (elements, rest) := semicolons n (conditional n) rest
  let (_, rest) ← punct .closeBrace rest
  let (right, after) := optional (rightBound n) rest
  some (⟨⟨beginOf ts, boundEnd right after⟩, left, elements, right⟩, after)

/-- A disjunction. -/
def disjunction : Reader Head := fun ts => do
  let (first, rest) ← conditional n ts
  let (more, left) := further n (fun s => s = .semicolon ∨ s = .bar) (conditional n) rest
  some (.disjunction ⟨beginOf ts, endOf (·.span.stop) more rest⟩ first more, left)

/-- A rule head. -/
def head : Reader Head := fun ts =>
  ((choice n ts).map fun (c, rest) => (.choice c, rest)) <|> disjunction n ts

end AspAtlas.Surface
