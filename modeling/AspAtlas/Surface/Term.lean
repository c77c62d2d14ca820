import AspAtlas.Surface.Reading
/-!
Reading terms. Arithmetic is a flat chain of operands without precedence; a name takes a
parenthesised argument list only if that list is complete.
-/
namespace AspAtlas.Surface

/-- One or more terms separated by commas. -/
def termsOf (n : Nat) (term : Reader Term) : Reader Terms := fun ts => do
  let (first, rest) ← term ts
  let (more, left) := further n (· = .comma) term rest
  some (.list ⟨beginOf ts, endOf (·.span.stop) more rest⟩ first more, left)

/-- Argument lists separated by semicolons. -/
def poolOf (n : Nat) (term : Reader Term) : Reader Pool := fun ts => do
  let (first, rest) ← termsOf n term ts
  let (others, left) := further n (· = .semicolon) (termsOf n term) rest
  some (.alternatives first others, left)

/-- A parenthesised, possibly empty pool, with the end of its closing parenthesis. -/
def argumentsOf (n : Nat) (term : Reader Term) : Reader (Option Pool × Position) := fun ts => do
  let (_, ts) ← punct .opening ts
  let (pool, ts) := optional (poolOf n term) ts
  let (stop, ts) ← punct .closing ts
  some ((pool, stop), ts)

/-- A parenthesised tuple, which may end in a comma. -/
def tupleOf (n : Nat) (term : Reader Term) : Reader Factor := fun ts => do
  let (_, rest) ← punct .opening ts
  let (pool, rest) := optional (poolOf n term) rest
  let (_, rest) := optional (punct .comma) rest
  let (stop, rest) ← punct .closing rest
  some (.tuple ⟨beginOf ts, stop⟩ pool, rest)

/-- A term between bars. -/
def absoluteOf (term : Reader Term) : Reader Factor := fun ts => do
  let (_, rest) ← punct .bar ts
  let (inner, rest) ← term rest
  let (stop, rest) ← punct .bar rest
  some (.absolute ⟨beginOf ts, stop⟩ inner, rest)

/-- A name with its arguments, if they follow. -/
def functionOf (n : Nat) (term : Reader Term) : Reader Factor := fun ts => do
  let (name, rest) ← identifier ts
  match argumentsOf n term rest with
  | some ((pool, stop), left) => some (.function ⟨beginOf ts, stop⟩ name pool, left)
  | none => some (.function ⟨beginOf ts, beginOf rest⟩ name none, rest)

/-- A variable, number, quoted text or extreme constant. -/
def simpleFactor : Reader Factor
  | ⟨.var text, begin, stop⟩ :: ts => some (.var ⟨begin, stop⟩ text, ts)
  | ⟨.number text, begin, stop⟩ :: ts => some (.constant ⟨begin, stop⟩ text, ts)
  | ⟨.quoted text, begin, stop⟩ :: ts => some (.constant ⟨begin, stop⟩ text, ts)
  | ⟨.keyword word, begin, stop⟩ :: ts =>
    if word ∈ [Keyword.supremum, .sup, .infimum, .inf] then
      some (.constant ⟨begin, stop⟩ word.text, ts)
    else none
  | _ => none

/-- An operand behind a minus sign. -/
def negationOf (factor : Reader Factor) : Reader Factor := fun ts => do
  let (_, rest) ← punct .minus ts
  let (inner, left) ← factor rest
  some (.negation ⟨beginOf ts, inner.span.stop⟩ inner, left)

/-- An arithmetic symbol and the operand after it. -/
def operandOf (factor : Reader Factor) : Reader (Punct × Factor) := fun ts => do
  let (operator, rest) ← punctWith Punct.isArithmetic ts
  let (operand, left) ← factor rest
  some ((operator, operand), left)

/-- A chain of operands. -/
def chainOf (n : Nat) (factor : Reader Factor) : Reader Term := fun ts => do
  let (first, rest) ← factor ts
  let (more, left) := many (operandOf factor) n rest
  some (.chain ⟨beginOf ts, endOf (·.2.span.stop) more rest⟩ first more, left)

mutual

/-- A term; `n` bounds nesting and length. -/
def term : Nat → Reader Term
  | 0 => fun _ => none
  | n + 1 => chainOf n (factor n)

/-- An operand; `n` bounds nesting and length. -/
def factor : Nat → Reader Factor
  | 0 => fun _ => none
  | n + 1 => fun ts =>
    negationOf (factor n) ts <|> tupleOf n (term n) ts <|> absoluteOf (term n) ts
      <|> functionOf n (term n) ts <|> simpleFactor ts

end

end AspAtlas.Surface
