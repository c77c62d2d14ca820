import AspAtlas.Node.Render
import AspAtlas.Surface.Tree
import AspAtlas.Text.Decimal
/-!
From concrete syntax to syntax trees. Lowering is total but for one case: a declared arity has to
fit into 64 bits. Parentheses around a single term vanish, chains associate to the left, and
constraints get the head `#false`.
-/
namespace AspAtlas.Surface

variable (file : Path)

/-- A childless node of a kind at a span. -/
def Span.node (span : Span) (kind : NodeKind) : Node :=
  { kind, location := ⟨file, span.begin, span.stop⟩ }

/-- A name applied to arguments and further alternatives of them. -/
def applied (span : Span) (name : String) (arguments : List Node × List Node) : Node :=
  { (span.node file .function) with name := some name }
    |>.withSequence .arguments arguments.1
    |>.withSequence .pool arguments.2

/-- A childless node with a name. -/
def named (span : Span) (kind : NodeKind) (name : String) : Node :=
  { (span.node file kind) with name := some name }

/-- Two terms joined by an arithmetic symbol, from the begin of the left to the end of the right. -/
def joinTerms (left : Node) (operator : Punct) (right : Node) : Node :=
  let location : Location := ⟨file, left.location.begin, right.location.stop⟩
  let node : Node :=
    if operator = .dots then { kind := .interval, location }
    else { kind := .binaryOperation, location, operator := some operator.text }
  (node.withNode .left left).withNode .right right

/-- A term under a unary operator. -/
def unary (location : Location) (operator : String) (argument : Node) : Node :=
  ({ kind := .unaryOperation, location, operator := some operator } : Node).withNode
    .argument argument

/-- A tuple; one of a single term is that term. -/
def tupled (span : Span) (arguments : List Node × List Node) : Node :=
  match arguments with
  | ([element], []) => element
  | _ => applied file span "" arguments

mutual

/-- The tree of a term. -/
def Term.lower : Term → Node
  | .chain _ first rest => lowerChain (first.lower) rest

/-- A chain folded from the left. -/
def lowerChain (left : Node) : List (Punct × Factor) → Node
  | [] => left
  | (operator, operand) :: rest => lowerChain (joinTerms file left operator operand.lower) rest

/-- The tree of an operand. -/
def Factor.lower : Factor → Node
  | .negation span inner => unary ⟨file, span.begin, span.stop⟩ "-" inner.lower
  | .tuple span none => tupled file span ([], [])
  | .tuple span (some pool) => tupled file span pool.lower
  | .absolute span inner => unary ⟨file, span.begin, span.stop⟩ "|" inner.lower
  | .function span name none => named file span .symbolicTerm name
  | .function span name (some pool) => applied file span name pool.lower
  | .var span name => named file span .var name
  | .constant span text => named file span .symbolicTerm text

/-- The first argument list, and nodes for the alternatives. -/
def Pool.lower : Pool → List Node × List Node
  | .alternatives first others => (first.lower, lowerAlternatives others)

/-- A node for each alternative argument list. -/
def lowerAlternatives : List Terms → List Node
  | [] => []
  | terms :: rest =>
    (named file terms.span .function "").withSequence .arguments terms.lower ::
      lowerAlternatives rest

/-- The trees of a list of terms. -/
def Terms.lower : Terms → List Node
  | .list _ first rest => first.lower :: lowerTerms rest

/-- The trees of further terms. -/
def lowerTerms : List Term → List Node
  | [] => []
  | term :: rest => term.lower :: lowerTerms rest

end

/-- The tree of a predicate occurrence; a classical negation is kept as its operator. -/
def Atom.lower (atom : Atom) : Node :=
  let arguments := (atom.pool.map (Pool.lower file)).getD ([], [])
  let node := (atom.span.node file .symbolicAtom).withNode .symbol
    (applied file atom.span atom.name arguments)
  if atom.negated then { node with operator := some "-" } else node

/-- The sign of a number of negations. -/
def Negations.sign : Negations → Sign
  | none => .none
  | once => .negation
  | twice => .doubleNegation

/-- The tree of an assertion. -/
def Assertion.lower : Assertion → Node
  | .boolean span value => named file span .booleanConstant value.name
  | .comparison span left operator right =>
    let guard : Node := { (right.span.node file .guard) with operator := some operator.text }
    (span.node file .comparison)
      |>.withNode .term (left.lower file)
      |>.withSequence .guards [guard.withNode .term (right.lower file)]
  | .symbolic atom => atom.lower file

/-- The tree of a literal. -/
def Literal.lower (l : Literal) : Node :=
  { (l.span.node file .literal) with sign := l.negations.sign }.withNode .atom
  (l.assertion.lower file)

/-- The trees of a condition. -/
def lowerCondition (condition : List Literal) : List Node := condition.map (Literal.lower file)

/-- The tree of an element of a head, with its condition even if that is empty. -/
def Conditional.lower (c : Conditional) : Node :=
  (c.span.node file .conditionalLiteral)
    |>.withNode .literal (c.literal.lower file)
    |>.withSequence .condition (lowerCondition file c.condition)

/-- The tree of an element of a body: a plain literal if there is no condition. -/
def Conditional.lowerPlain (c : Conditional) : Node :=
  if c.condition.isEmpty then c.literal.lower file else c.lower file

/-- The tree of a bound; its operator is `<=` unless written. -/
def Bound.lower (b : Bound) : Node :=
  { (b.span.node file .guard) with operator := some ((b.operator.map Punct.text).getD "<=") }
    |>.withNode .term (b.term.lower file)

/-- The tree of an aggregate element. -/
def AggregateElement.lower (e : AggregateElement) : Node :=
  (e.span.node file .bodyAggregateElement)
    |>.withSequence .terms ((e.terms.map (Terms.lower file)).getD [])
    |>.withSequence .condition (lowerCondition file e.condition)

/-- The tree of a body aggregate, as a literal. -/
def Aggregate.lower (a : Aggregate) : Node :=
  let aggregate : Node :=
    { (a.span.node file .bodyAggregate) with operator := some a.function.name }
      |>.withNode? .leftGuard (a.left.map (Bound.lower file))
      |>.withSequence .elements (a.elements.map (AggregateElement.lower file))
      |>.withNode? .rightGuard (a.right.map (Bound.lower file))
  { (a.span.node file .literal) with sign := a.negations.sign }.withNode .atom aggregate

/-- The tree of a body element. -/
def BodyElement.lower : BodyElement → Node
  | .conditional element => element.lowerPlain file
  | .aggregate element => element.lower file

/-- The trees of a body. -/
def lowerBody (body : List BodyElement) : List Node := body.map (BodyElement.lower file)

/-- The tree of a choice. -/
def Choice.lower (c : Choice) : Node :=
  (c.span.node file .aggregate)
    |>.withNode? .leftGuard (c.left.map (Bound.lower file))
    |>.withSequence .elements (c.elements.map (Conditional.lower file))
    |>.withNode? .rightGuard (c.right.map (Bound.lower file))

/-- The tree of a head; one literal without condition stands for itself. -/
def Head.lower : Head → Node
  | .choice c => c.lower file
  | .disjunction span first rest =>
    if rest.isEmpty && first.condition.isEmpty then first.literal.lower file
    else (span.node file .disjunction).withSequence .elements
      ((first :: rest).map (Conditional.lower file))

/-- The tree of a minimised weight under a condition or body. -/
def minimized (span : Span) (weight : Node) (spec : Weight) (body : List Node) : Node :=
  (span.node file .minimize)
    |>.withNode .weight weight
    |>.withNode? .priority (spec.priority.map (Term.lower file))
    |>.withSequence .terms (spec.terms.map (Term.lower file))
    |>.withSequence .body body

/-- The tree of an optimised element; maximising minimises the negated weight. -/
def OptimizeElement.lower (maximize : Bool) (e : OptimizeElement) : Node :=
  let weight := e.weight.weight.lower file
  let weight := if maximize then unary weight.location "-" weight else weight
  minimized file e.span weight e.weight (lowerCondition file e.condition)

/-- The first number that a declared arity cannot be. -/
def arityLimit : Nat := 18446744073709551616

/-- A signature statement; a too large arity is given back as written. -/
def lowerSignature (span : Span) (kind : NodeKind) (name digits : String) : Except String Node :=
  let arity := Text.natOf digits.toList
  if arity < arityLimit then .ok { (named file span kind name) with arity := some arity }
  else .error digits

/-- The text of an include target without the quotes around it. -/
def unquote (target : String) : String :=
  let inner := target.toList.dropWhile (· == '"')
  String.ofList (inner.reverse.dropWhile (· == '"')).reverse

/-- What a file consists of at top level. -/
inductive Item where
  | statement (node : Node)
  | includes (target : String) (location : Location)

/-- The items of a statement: one, but for optimisation statements, which have one per element. -/
def Statement.lower : Statement → Except String (List Item)
  | .includes span target => .ok [.includes (unquote target) ⟨file, span.begin, span.stop⟩]
  | .constant span name value =>
    .ok [.statement ((named file span .definition name).withNode .value (value.lower file))]
  | .defined span name digits =>
    (lowerSignature file span .defined name digits).map fun node => [.statement node]
  | .showAll span =>
    .ok [.statement { (named file span .showSignature "") with arity := some 0 }]
  | .showSignature span name digits =>
    (lowerSignature file span .showSignature name digits).map fun node => [.statement node]
  | .showTerm span term body =>
    .ok [.statement ((span.node file .showTerm)
      |>.withNode .term (term.lower file)
      |>.withSequence .body (lowerBody file body))]
  | .program span name => .ok [.statement (named file span .program name)]
  | .external span atom condition type =>
    let node := (span.node file .external)
      |>.withNode .atom (atom.lower file)
      |>.withSequence .body (lowerCondition file condition)
    .ok [.statement { node with name := type.map fun t => (t.lower file).render }]
  | .optimize _ maximize elements =>
    .ok (elements.map fun e => .statement (e.lower file maximize))
  | .weak span body weight =>
    .ok [.statement
      (minimized file span (weight.weight.lower file) weight (lowerBody file body))]
  | .rule span head body =>
    let head := match head with
      | some head => head.lower file
      | none => named file span .booleanConstant "false"
    .ok [.statement ((span.node file .rule)
      |>.withNode .head head
      |>.withSequence .body (lowerBody file body))]

/-- The items of a program, or the first arity that does not fit, as written. -/
def lowerProgram (statements : List Statement) : Except String (List Item) := do
  let items ← statements.mapM (Statement.lower file)
  pure items.flatten

end AspAtlas.Surface
