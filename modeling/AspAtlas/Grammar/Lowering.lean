import AspAtlas.Grammar.Derivation
import AspAtlas.Surface.Lowering
/-!
From matches of grammar rules to syntax trees. Matches are looked through by rule or by position,
and what the grammar leaves open is checked: whatever is out of place or missing is a fault.
-/
namespace AspAtlas.Grammar

/-- Why a match of a rule has no tree. -/
inductive Fault where
  | unexpected (rule : Rule) (context : String)
  | incomplete (context : String)
  | lacking (what : String)
  | arity (digits : String)
deriving DecidableEq, Repr

/-- The wording of a fault. -/
def Fault.message : Fault → String
  | unexpected rule context => s!"unexpected {rule.name} in {context}"
  | incomplete context => s!"incomplete {context}"
  | lacking what => what
  | arity digits => s!"invalid arity {digits}: number too large to fit in target type"

/-- The first of some pairs, and the others. -/
def next (context : String) : List Pair → Except Fault (Pair × List Pair)
  | [] => .error (.incomplete context)
  | pair :: rest => .ok (pair, rest)

namespace Pair

open Surface (Item applied joinTerms lowerSignature minimized named tupled unary unquote)

variable (file : Path)

/-- A childless node of a kind at a pair. -/
def node (pair : Pair) (kind : NodeKind) : Node := pair.span.node file kind

/-- The first pair inside. -/
def first (pair : Pair) (context : String) : Except Fault Pair :=
  (next context pair.inner).map Prod.fst

/-- Two terms joined by the text of an operator, from the begin of the
left to the end of the right. -/
def joined (left : Node) (operator : String) (right : Node) : Node :=
  let location : Location := ⟨file, left.location.begin, right.location.stop⟩
  let node : Node :=
    if operator = ".." then { kind := .interval, location }
    else { kind := .binaryOperation, location, operator := some operator }
  (node.withNode .left left).withNode .right right

mutual

/-- The tree of a term, folded from the left. -/
def term : Pair → Except Fault Node
  | ⟨_, _, _, inner⟩ =>
    match inner with
    | [] => .error (.incomplete "term")
    | first :: rest => do chain (← first.operand) rest

/-- A term with the operators and operands that follow it. -/
def chain (left : Node) : List Pair → Except Fault Node
  | [] => .ok left
  | [_] => .error (.incomplete "term")
  | operator :: right :: rest => do chain (joined file left operator.text (← right.operand)) rest

/-- The tree of an operand. -/
def operand : Pair → Except Fault Node
  | ⟨rule, span, text, inner⟩ =>
    match rule with
    | .negation =>
      match inner with
      | [] => .error (.incomplete "negation")
      | argument :: _ => do .ok (unary ⟨file, span.begin, span.stop⟩ "-" (← argument.operand))
    | .tuple =>
      match inner with
      | [] => .ok (tupled file span ([], []))
      | pool :: _ => do .ok (tupled file span (← pool.arguments))
    | .absolute =>
      match inner with
      | [] => .error (.incomplete "absolute value")
      | argument :: _ => do .ok (unary ⟨file, span.begin, span.stop⟩ "|" (← argument.term))
    | .function =>
      match inner with
      | [] => .error (.incomplete "function")
      | [name] => .ok (named file span .symbolicTerm name.text)
      | name :: pool :: _ => do .ok (applied file span name.text (← pool.arguments))
    | .var => .ok (named file span .var text)
    | .number | .string | .supremum | .infimum => .ok (named file span .symbolicTerm text)
    | other => .error (.unexpected other "term")

/-- The first argument list, and nodes for the alternatives. -/
def arguments : Pair → Except Fault (List Node × List Node)
  | ⟨_, _, _, inner⟩ =>
    match inner with
    | [] => .error (.incomplete "arguments")
    | first :: rest => do .ok (← first.terms, ← alternatives rest)

/-- A node for each alternative argument list. -/
def alternatives : List Pair → Except Fault (List Node)
  | [] => .ok []
  | pair :: rest => do
    let arguments ← pair.terms
    .ok ((named file pair.span .function "").withSequence .arguments arguments ::
      (← alternatives rest))

/-- The trees of a list of terms. -/
def terms : Pair → Except Fault (List Node)
  | ⟨_, _, _, inner⟩ => termList inner

/-- The trees of some terms. -/
def termList : List Pair → Except Fault (List Node)
  | [] => .ok []
  | pair :: rest => do .ok ((← pair.term) :: (← termList rest))

end

/-- What of an atom has been seen: a classical negation, its name and its arguments. -/
structure AtomParts where
  negated : Bool := false
  name : String := ""
  arguments : List Node × List Node := ([], [])

/-- A further part of an atom. -/
def atomPart (seen : AtomParts) (pair : Pair) : Except Fault AtomParts :=
  match pair.rule with
  | .classicalNegation => .ok { seen with negated := true }
  | .identifier => .ok { seen with name := pair.text }
  | .arguments => do .ok { seen with arguments := ← pair.arguments file }
  | other => .error (.unexpected other "atom")

/-- The tree of a predicate occurrence; a classical negation is kept as its operator. -/
def symbolicAtom (pair : Pair) : Except Fault Node := do
  let seen ← pair.inner.foldlM (atomPart file) {}
  let node := (pair.node file .symbolicAtom).withNode .symbol
    (applied file pair.span seen.name seen.arguments)
  .ok (if seen.negated then { node with operator := some "-" } else node)

/-- The tree of a comparison. -/
def comparison (pair : Pair) : Except Fault Node := do
  let (left, rest) ← next "comparison" pair.inner
  let left ← left.term file
  let (operator, rest) ← next "comparison" rest
  let (right, _) ← next "comparison" rest
  let guard : Node := { right.node file .guard with operator := some operator.text }
  .ok ((pair.node file .comparison)
    |>.withNode .term left
    |>.withSequence .guards [guard.withNode .term (← right.term file)])

/-- The sign of some negations: every one but the first is a second one. -/
def negations (pair : Pair) : Sign :=
  match pair.inner with
  | [] | [_] => .negation
  | _ => .doubleNegation

/-- The text of a keyword without its hash signs. -/
def word (pair : Pair) : String := String.ofList (pair.text.toList.dropWhile (· == '#'))

/-- A further part of a literal: its sign, or its atom. -/
def literalPart (seen : Sign × Option Node) (pair : Pair) : Except Fault (Sign × Option Node) :=
  match pair.rule with
  | .naf => .ok (pair.negations, seen.2)
  | .boolean => .ok (seen.1, some (named file pair.span .booleanConstant pair.word))
  | .comparison => do .ok (seen.1, some (← pair.comparison file))
  | .symbolicAtom => do .ok (seen.1, some (← pair.symbolicAtom file))
  | other => .error (.unexpected other "literal")

/-- The tree of a literal. -/
def literal (pair : Pair) : Except Fault Node := do
  let (sign, atom) ← pair.inner.foldlM (literalPart file) (.none, none)
  match atom with
  | none => .error (.lacking "literal without atom")
  | some atom => .ok ({ (pair.node file .literal) with sign }.withNode .atom atom)

/-- The trees of a condition. -/
def condition (pair : Pair) : Except Fault (List Node) := pair.inner.mapM (literal file)

/-- The trees of a condition if there is one. -/
def conditionOf : List Pair → Except Fault (List Node)
  | [] => .ok []
  | pair :: _ => pair.condition file

/-- The tree of an element of a head, with its condition even if that is empty. -/
def headLiteral (pair : Pair) : Except Fault Node := do
  let (literal, rest) ← next "head literal" pair.inner
  let literal ← literal.literal file
  .ok ((pair.node file .conditionalLiteral)
    |>.withNode .literal literal
    |>.withSequence .condition (← conditionOf file rest))

/-- The tree of an element of a body: a plain literal if there is no condition. -/
def conditionalLiteral (pair : Pair) : Except Fault Node := do
  let (literal, rest) ← next "body literal" pair.inner
  let literal ← literal.literal file
  match rest with
  | [] => .ok literal
  | condition :: _ =>
    .ok ((pair.node file .conditionalLiteral)
      |>.withNode .literal literal
      |>.withSequence .condition (← condition.condition file))

/-- A further part of a bound: its term, or its operator. -/
def guardPart (seen : Option Node × String) (pair : Pair) : Except Fault (Option Node × String) :=
  match pair.rule with
  | .term => do .ok (some (← pair.term file), seen.2)
  | .comparisonOp => .ok (seen.1, pair.text)
  | other => .error (.unexpected other "guard")

/-- The tree of a bound; its operator is `<=` unless written. -/
def guard (pair : Pair) : Except Fault Node := do
  let (term, operator) ← pair.inner.foldlM (guardPart file) (none, "<=")
  match term with
  | none => .error (.lacking "guard without term")
  | some term => .ok ({ pair.node file .guard with operator := some operator }.withNode .term term)

/-- A further part of an aggregate element: its terms, or its condition. -/
def elementPart (seen : List Node × List Node) (pair : Pair) :
    Except Fault (List Node × List Node) :=
  match pair.rule with
  | .terms => do .ok (← pair.terms file, seen.2)
  | .condition => do .ok (seen.1, ← pair.condition file)
  | other => .error (.unexpected other "aggregate element")

/-- The tree of an aggregate element. -/
def aggregateElement (pair : Pair) : Except Fault Node := do
  let (terms, condition) ← pair.inner.foldlM (elementPart file) ([], [])
  .ok ((pair.node file .bodyAggregateElement)
    |>.withSequence .terms terms
    |>.withSequence .condition condition)

/-- What of an aggregate has been seen. -/
structure AggregateParts where
  sign : Sign := .none
  function : String := ""
  left : Option Node := none
  elements : List Node := []
  right : Option Node := none

/-- A further part of a body aggregate. -/
def aggregatePart (seen : AggregateParts) (pair : Pair) : Except Fault AggregateParts :=
  match pair.rule with
  | .naf => .ok { seen with sign := pair.negations }
  | .leftGuard => do .ok { seen with left := some (← pair.guard file) }
  | .aggregateFunction => .ok { seen with function := pair.word }
  | .aggregateElement =>
    do .ok { seen with elements := seen.elements ++ [← pair.aggregateElement file] }
  | .rightGuard => do .ok { seen with right := some (← pair.guard file) }
  | other => .error (.unexpected other "aggregate")

/-- The tree of a body aggregate, as a literal. -/
def aggregateLiteral (pair : Pair) : Except Fault Node := do
  let seen ← pair.inner.foldlM (aggregatePart file) {}
  let aggregate : Node := { (pair.node file .bodyAggregate) with operator := some seen.function }
    |>.withNode? .leftGuard seen.left
    |>.withSequence .elements seen.elements
    |>.withNode? .rightGuard seen.right
  .ok ({ (pair.node file .literal) with sign := seen.sign }.withNode .atom aggregate)

/-- The tree of a body element. -/
def bodyElement (pair : Pair) : Except Fault Node :=
  match pair.rule with
  | .conditionalLiteral => pair.conditionalLiteral file
  | .aggregateLiteral => pair.aggregateLiteral file
  | other => .error (.unexpected other "body")

/-- The trees of a body. -/
def body (pair : Pair) : Except Fault (List Node) := pair.inner.mapM (bodyElement file)

/-- What of a choice has been seen. -/
structure ChoiceParts where
  left : Option Node := none
  elements : List Node := []
  right : Option Node := none

/-- A further part of a choice. -/
def choicePart (seen : ChoiceParts) (pair : Pair) : Except Fault ChoiceParts :=
  match pair.rule with
  | .leftGuard => do .ok { seen with left := some (← pair.guard file) }
  | .rightGuard => do .ok { seen with right := some (← pair.guard file) }
  | .headLiteral => do .ok { seen with elements := seen.elements ++ [← pair.headLiteral file] }
  | other => .error (.unexpected other "choice")

/-- The tree of a choice. -/
def choice (pair : Pair) : Except Fault Node := do
  let seen ← pair.inner.foldlM (choicePart file) {}
  .ok ((pair.node file .aggregate)
    |>.withNode? .leftGuard seen.left
    |>.withSequence .elements seen.elements
    |>.withNode? .rightGuard seen.right)

/-- The literal of a lone head element without condition. -/
def loneLiteral? : List Node → Option Node
  | [single] => if (single.sequence .condition).isEmpty then single.node? .literal else none
  | _ => none

/-- The tree of a disjunction; one literal without condition stands for itself. -/
def disjunction (pair : Pair) : Except Fault Node := do
  let elements ← pair.inner.mapM (headLiteral file)
  match loneLiteral? elements with
  | some literal => .ok literal
  | none =>
    if elements.isEmpty then .error (.lacking "disjunction without elements")
    else .ok ((pair.node file .disjunction).withSequence .elements elements)

/-- The tree of a head. -/
def head (pair : Pair) : Except Fault Node := do
  let inner ← pair.first "head"
  match inner.rule with
  | .choice => inner.choice file
  | .disjunction => inner.disjunction file
  | other => .error (.unexpected other "head")

/-- A further part of a rule: its head, or its body. -/
def rulePart (seen : Option Node × List Node) (pair : Pair) :
    Except Fault (Option Node × List Node) :=
  match pair.rule with
  | .head => do .ok (some (← pair.head file), seen.2)
  | .body => do .ok (seen.1, ← pair.body file)
  | other => .error (.unexpected other "rule")

/-- The tree of a rule; a constraint gets the head `#false`. -/
def normalRule (pair : Pair) : Except Fault Node := do
  let (head, body) ← pair.inner.foldlM (rulePart file) (none, [])
  .ok ((pair.node file .rule)
    |>.withNode .head (head.getD (named file pair.span .booleanConstant "false"))
    |>.withSequence .body body)

/-- What of a weight has been seen. -/
structure WeightParts where
  weight : Option Node := none
  priority : Option Node := none
  terms : List Node := []

/-- A further part of a weight: the first term is the weight itself. -/
def weightPart (seen : WeightParts) (pair : Pair) : Except Fault WeightParts :=
  match pair.rule with
  | .term => do
    let term ← pair.term file
    match seen.weight with
    | none => .ok { seen with weight := some term }
    | some _ => .ok { seen with terms := seen.terms ++ [term] }
  | .priority => do
    let inner ← pair.first "priority"
    .ok { seen with priority := some (← inner.term file) }
  | other => .error (.unexpected other "weight")

/-- The weight, the priority and the tuple of a weight. -/
def weightSpec (pair : Pair) : Except Fault (Node × Option Node × List Node) := do
  let seen ← pair.inner.foldlM (weightPart file) {}
  match seen.weight with
  | none => .error (.lacking "missing weight")
  | some weight => .ok (weight, seen.priority, seen.terms)

/-- The tree of a minimised weight under a condition or body. -/
def minimize (pair : Pair) (weight : Node) (priority : Option Node)
    (terms body : List Node) : Node :=
  (pair.node file .minimize)
    |>.withNode .weight weight
    |>.withNode? .priority priority
    |>.withSequence .terms terms
    |>.withSequence .body body

/-- The tree of an optimised element; maximising minimises the negated weight. -/
def optimizeElement (maximize : Bool) (pair : Pair) : Except Fault Node := do
  let (spec, rest) ← next "optimize element" pair.inner
  let (weight, priority, terms) ← spec.weightSpec file
  let condition ← conditionOf file rest
  let weight := if maximize then unary weight.location "-" weight else weight
  .ok (pair.minimize file weight priority terms condition)

/-- The trees of an optimisation statement, one for each element. -/
def optimize (pair : Pair) : Except Fault (List Node) := do
  let (kind, elements) ← next "optimize" pair.inner
  elements.mapM (optimizeElement file (kind.text = "#maximize"))

/-- The tree of a weak constraint. -/
def weakConstraint (pair : Pair) : Except Fault Node := do
  let (body, rest) ← next "weak constraint" pair.inner
  let body ← body.body file
  let (spec, _) ← next "weak constraint" rest
  let (weight, priority, terms) ← spec.weightSpec file
  .ok (pair.minimize file weight priority terms body)

/-- The tree of a constant definition. -/
def constDef (pair : Pair) : Except Fault Node := do
  let (name, rest) ← next "#const" pair.inner
  let (value, _) ← next "#const" rest
  .ok ((named file pair.span .definition name.text).withNode .value (← value.term file))

/-- The tree of a signature statement, unless its arity is too large. -/
def signature (kind : NodeKind) (pair : Pair) : Except Fault Node := do
  let (name, rest) ← next "signature" pair.inner
  let (digits, _) ← next "signature" rest
  match lowerSignature file pair.span kind name.text digits.text with
  | .ok node => .ok node
  | .error digits => .error (.arity digits)

/-- The tree of a shown term. -/
def showTerm (pair : Pair) : Except Fault Node := do
  let (term, rest) ← next "#show" pair.inner
  let term ← term.term file
  let body ← match rest with
    | [] => pure []
    | body :: _ => body.body file
  .ok ((pair.node file .showTerm)
    |>.withNode .term term
    |>.withSequence .body body)

/-- What of an external statement has been seen. -/
structure ExternalParts where
  atom : Option Node := none
  condition : List Node := []
  type : Option String := none

/-- A further part of an external statement. -/
def externalPart (seen : ExternalParts) (pair : Pair) : Except Fault ExternalParts :=
  match pair.rule with
  | .symbolicAtom => do .ok { seen with atom := some (← pair.symbolicAtom file) }
  | .condition => do .ok { seen with condition := ← pair.condition file }
  | .term => do .ok { seen with type := some (← pair.term file).render }
  | other => .error (.unexpected other "#external")

/-- The tree of an external atom. -/
def external (pair : Pair) : Except Fault Node := do
  let seen ← pair.inner.foldlM (externalPart file) {}
  match seen.atom with
  | none => .error (.lacking "#external without atom")
  | some atom =>
    let node := (pair.node file .external)
      |>.withNode .atom atom
      |>.withSequence .body seen.condition
    .ok { node with name := seen.type }

/-- The tree of a statement of one node. -/
def statement (pair : Pair) : Except Fault Node :=
  match pair.rule with
  | .normalRule => pair.normalRule file
  | .constDef => pair.constDef file
  | .defined => pair.signature file .defined
  | .showSignature => pair.signature file .showSignature
  | .showAll => .ok { named file pair.span .showSignature "" with arity := some 0 }
  | .showTerm => pair.showTerm file
  | .programPart => do
    let name ← pair.first "program"
    .ok (named file pair.span .program name.text)
  | .weakConstraint => pair.weakConstraint file
  | .external => pair.external file
  | other => .error (.unexpected other "statement")

/-- The items of a statement: one, but for optimisation statements, which have one per element. -/
def items (pair : Pair) : Except Fault (List Item) :=
  match pair.rule with
  | .includes => do
    let target ← pair.first "include"
    .ok [.includes (unquote target.text) ⟨file, pair.span.begin, pair.span.stop⟩]
  | .optimize => do .ok ((← pair.optimize file).map .statement)
  | _ => do .ok [.statement (← pair.statement file)]

/-- The items of the statements up to the end of the text. -/
def itemsUpToEnd : List Pair → Except Fault (List Item)
  | [] => .ok []
  | pair :: rest =>
    if pair.rule = .finish then .ok []
    else do .ok ((← pair.items file) ++ (← itemsUpToEnd rest))

/-- The items of a program. -/
def program (pair : Pair) : Except Fault (List Item) := itemsUpToEnd file pair.inner

end Pair

/-- The items of what a whole text matched. -/
def lowerPairs (file : Path) : List Pair → Except Fault (List Surface.Item)
  | [] => .error (.lacking "empty parse result")
  | program :: _ => program.program file

end AspAtlas.Grammar
