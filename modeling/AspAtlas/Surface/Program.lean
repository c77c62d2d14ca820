import AspAtlas.Surface.Lexer
import AspAtlas.Surface.Literal
/-!
Reading statements and whole programs. The statement kinds are tried in a fixed order; a program is
a sequence of statements up to the end of the text.
-/
namespace AspAtlas.Surface

variable (n : Nat)

/-- An include of another file. -/
def includeStatement : Reader Statement := fun ts => do
  let (_, rest) ← keyword .includes ts
  match rest with
  | ⟨.quoted target, _, _⟩ :: rest =>
    let (stop, rest) ← endDot rest
    some (.includes ⟨beginOf ts, stop⟩ target, rest)
  | _ => none

/-- A bracketed name. -/
def bracketedName : Reader Position := fun ts => do
  let (_, ts) ← punct .openBracket ts
  let (_, ts) ← identifier ts
  punct .closeBracket ts

/-- A bracketed term, with the end of its bracket. -/
def bracketedTerm : Reader (Term × Position) := fun ts => do
  let (_, ts) ← punct .openBracket ts
  let (term, ts) ← term n ts
  let (stop, ts) ← punct .closeBracket ts
  some ((term, stop), ts)

/-- A constant definition, possibly with a mode in brackets. -/
def constantStatement : Reader Statement := fun ts => do
  let (_, rest) ← keyword .const ts
  let (name, rest) ← identifier rest
  let (_, rest) ← punct .equal rest
  let (value, rest) ← term n rest
  let (_, rest) ← endDot rest
  match bracketedName rest with
  | some (stop, left) => some (.constant ⟨beginOf ts, stop⟩ name value, left)
  | none => some (.constant ⟨beginOf ts, beginOf rest⟩ name value, rest)

/-- A name, a slash and digits, closed by a dot. -/
def signature : Reader (String × String × Position) := fun ts => do
  let (name, ts) ← identifier ts
  let (_, ts) ← punct .slash ts
  let (digits, ts) ← number ts
  let (stop, ts) ← endDot ts
  some ((name, digits, stop), ts)

/-- A statement that is a keyword and a signature. -/
def signatureStatement (word : Keyword) (make : Span → String → String → Statement) :
    Reader Statement := fun ts => do
  let (_, rest) ← keyword word ts
  let ((name, digits, stop), rest) ← signature rest
  some (make ⟨beginOf ts, stop⟩ name digits, rest)

/-- A declared input. -/
def definedStatement : Reader Statement := signatureStatement .defined .defined

/-- A statement that shows everything listed elsewhere only. -/
def showAllStatement : Reader Statement := fun ts => do
  let (_, rest) ← keyword .shows ts
  let (stop, rest) ← endDot rest
  some (.showAll ⟨beginOf ts, stop⟩, rest)

/-- A shown predicate. -/
def showSignatureStatement : Reader Statement := signatureStatement .shows .showSignature

/-- A body behind a colon. -/
def separatedBody : Reader (List BodyElement) := fun ts => do
  let (_, ts) ← separator ts
  body n ts

/-- A shown term, possibly with a body. -/
def showTermStatement : Reader Statement := fun ts => do
  let (_, rest) ← keyword .shows ts
  let (term, rest) ← term n rest
  let (body, rest) := optional (separatedBody n) rest
  let (stop, rest) ← endDot rest
  some (.showTerm ⟨beginOf ts, stop⟩ term (body.getD []), rest)

/-- The parameter names of a program part, in parentheses. -/
def parameterNames : Reader Unit := fun ts => do
  let (_, ts) ← punct .opening ts
  let ts := match identifier ts with
    | some (_, rest) => (further n (· = .comma) identifier rest).2
    | none => ts
  let (_, ts) ← punct .closing ts
  some ((), ts)

/-- The begin of a program part. -/
def programStatement : Reader Statement := fun ts => do
  let (_, rest) ← keyword .program ts
  let (name, rest) ← identifier rest
  let (_, rest) := optional (parameterNames n) rest
  let (stop, rest) ← endDot rest
  some (.program ⟨beginOf ts, stop⟩ name, rest)

/-- An external atom, possibly with a condition and a type in brackets. -/
def externalStatement : Reader Statement := fun ts => do
  let (_, rest) ← keyword .external ts
  let (atom, rest) ← atom n rest
  let ((condition, _), rest) := condition? n rest
  let (_, rest) ← endDot rest
  match bracketedTerm n rest with
  | some ((type, stop), left) =>
    some (.external ⟨beginOf ts, stop⟩ atom condition (some type), left)
  | none => some (.external ⟨beginOf ts, beginOf rest⟩ atom condition none, rest)

/-- A priority behind an at sign. -/
def priority : Reader Term := fun ts => do
  let (_, ts) ← punct .atSign ts
  term n ts

/-- A weight with its priority and tuple. -/
def weight : Reader Weight := fun ts => do
  let (weight, rest) ← term n ts
  let (priority, rest) := optional (priority n) rest
  let (terms, left) := further n (· = .comma) (term n) rest
  some (⟨⟨beginOf ts, endOf (·.span.stop) terms rest⟩, weight, priority, terms⟩, left)

/-- An element of an optimisation statement. -/
def optimizeElement : Reader OptimizeElement := fun ts => do
  let (weight, rest) ← weight n ts
  let ((condition, stop), left) := condition? n rest
  some (⟨⟨beginOf ts, stop⟩, weight, condition⟩, left)

/-- An optimisation statement. -/
def optimizeStatement : Reader Statement := fun ts => do
  let (word, rest) ← keywordWith (fun k => k = .minimize ∨ k = .maximize) ts
  let (_, rest) ← punct .openBrace rest
  let (elements, rest) := semicolons n (optimizeElement n) rest
  let (_, rest) ← punct .closeBrace rest
  let (stop, rest) ← endDot rest
  some (.optimize ⟨beginOf ts, stop⟩ (word = .maximize) elements, rest)

/-- A weak constraint. -/
def weakStatement : Reader Statement := fun ts => do
  let (_, rest) ← punct .weakIf ts
  let (body, rest) ← body n rest
  let (_, rest) ← endDot rest
  let (_, rest) ← punct .openBracket rest
  let (weight, rest) ← weight n rest
  let (stop, rest) ← punct .closeBracket rest
  some (.weak ⟨beginOf ts, stop⟩ body weight, rest)

/-- The arrow of a rule and the body after it, if there is one. -/
def arrowBody : Reader (List BodyElement) := fun ts => do
  let (_, ts) ← punct .ifThen ts
  let (body, ts) := optional (body n) ts
  some (body.getD [], ts)

/-- A rule with a head. -/
def headedRule : Reader Statement := fun ts => do
  let (head, rest) ← head n ts
  let (body, rest) := optional (arrowBody n) rest
  let (stop, rest) ← endDot rest
  some (.rule ⟨beginOf ts, stop⟩ (some head) (body.getD []), rest)

/-- A rule without a head. -/
def constraintRule : Reader Statement := fun ts => do
  let (body, rest) ← arrowBody n ts
  let (stop, rest) ← endDot rest
  some (.rule ⟨beginOf ts, stop⟩ none body, rest)

/-- A statement. -/
def statement : Reader Statement := fun ts =>
  includeStatement ts <|> constantStatement n ts <|> definedStatement ts <|> showAllStatement ts
    <|> showSignatureStatement ts <|> showTermStatement n ts <|> programStatement n ts
    <|> externalStatement n ts <|> optimizeStatement n ts <|> weakStatement n ts
    <|> headedRule n ts <|> constraintRule n ts

/-- Statements in front of `done`, reversed; nothing but the end of the text may be left over. -/
def statementsFrom : Nat → List Token → List Statement → Option (List Statement)
  | 0, _, _ => none
  | k + 1, ts, done =>
    match ts with
    | ⟨.finish, _, _⟩ :: _ => some done.reverse
    | _ =>
      match statement n ts with
      | some (s, rest) => statementsFrom k rest (s :: done)
      | none => none

/-- The bound on nesting and length that no text of `size` tokens exceeds. -/
def budget (size : Nat) : Nat := 2 * size + 2

/-- The statements of a token list. -/
def ofTokens? (ts : List Token) : Option (List Statement) :=
  statementsFrom (budget ts.length) (ts.length + 1) ts []

/-- The statements of a program text; nothing if the text is no program. -/
def parse? (text : String) : Option (List Statement) := ofTokens? (tokens text.toList)

end AspAtlas.Surface
