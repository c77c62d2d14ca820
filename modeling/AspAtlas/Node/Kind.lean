/-!
Kinds of syntax tree nodes, the named child fields, and which fields a kind carries in which order.
-/
namespace AspAtlas

/-- The named child slots of a node. -/
inductive Field where
  | head
  | body
  | value
  | term
  | terms
  | weight
  | priority
  | atom
  | literal
  | condition
  | symbol
  | guards
  | elements
  | leftGuard
  | rightGuard
  | arguments
  | pool
  | argument
  | left
  | right
deriving DecidableEq, Repr, Inhabited

namespace Field

/-- Every field, in declaration order. -/
def all : List Field :=
  [head, body, value, term, terms, weight, priority, atom, literal, condition, symbol, guards,
    elements, leftGuard, rightGuard, arguments, pool, argument, left, right]

/-- The name of a field in written trees. -/
def name : Field → String
  | head => "head"
  | body => "body"
  | value => "value"
  | term => "term"
  | terms => "terms"
  | weight => "weight"
  | priority => "priority"
  | atom => "atom"
  | literal => "literal"
  | condition => "condition"
  | symbol => "symbol"
  | guards => "guards"
  | elements => "elements"
  | leftGuard => "left_guard"
  | rightGuard => "right_guard"
  | arguments => "arguments"
  | pool => "pool"
  | argument => "argument"
  | left => "left"
  | right => "right"

/-- The field of a given name. -/
def ofName? (text : String) : Option Field := all.find? fun f => f.name == text

/-- Fields are ordered as declared. -/
instance : Ord Field := ⟨compareOn Field.ctorIdx⟩

instance : Std.TransOrd Field := inferInstanceAs (Std.TransCmp (compareOn Field.ctorIdx))

theorem mem_all (f : Field) : f ∈ all := by cases f <;> decide

end Field

/-- What a syntax tree node stands for. -/
inductive NodeKind where
  | rule
  | definition
  | defined
  | showSignature
  | showTerm
  | program
  | minimize
  | external
  | literal
  | conditionalLiteral
  | symbolicAtom
  | comparison
  | guard
  | booleanConstant
  | disjunction
  | aggregate
  | bodyAggregate
  | bodyAggregateElement
  | function
  | var
  | symbolicTerm
  | unaryOperation
  | binaryOperation
  | interval
deriving DecidableEq, Repr, Inhabited

namespace NodeKind

/-- Every kind, in declaration order: statements, then literals and atoms, then terms. -/
def all : List NodeKind :=
  [rule, definition, defined, showSignature, showTerm, program, minimize, external, literal,
    conditionalLiteral, symbolicAtom, comparison, guard, booleanConstant, disjunction, aggregate,
    bodyAggregate, bodyAggregateElement, function, var, symbolicTerm, unaryOperation,
    binaryOperation, interval]

/-- The name of a kind in written trees. -/
def name : NodeKind → String
  | rule => "Rule"
  | definition => "Definition"
  | defined => "Defined"
  | showSignature => "ShowSignature"
  | showTerm => "ShowTerm"
  | program => "Program"
  | minimize => "Minimize"
  | external => "External"
  | literal => "Literal"
  | conditionalLiteral => "ConditionalLiteral"
  | symbolicAtom => "SymbolicAtom"
  | comparison => "Comparison"
  | guard => "Guard"
  | booleanConstant => "BooleanConstant"
  | disjunction => "Disjunction"
  | aggregate => "Aggregate"
  | bodyAggregate => "BodyAggregate"
  | bodyAggregateElement => "BodyAggregateElement"
  | function => "Function"
  | var => "Variable"
  | symbolicTerm => "SymbolicTerm"
  | unaryOperation => "UnaryOperation"
  | binaryOperation => "BinaryOperation"
  | interval => "Interval"

/-- The kind of a given name. -/
def ofName? (text : String) : Option NodeKind := all.find? fun k => k.name == text

/-- The child fields of a kind, in the order in which they are visited. -/
def childFields : NodeKind → List Field
  | rule => [.head, .body]
  | definition => [.value]
  | showTerm => [.term, .body]
  | minimize => [.weight, .priority, .terms, .body]
  | external => [.atom, .body]
  | literal => [.atom]
  | conditionalLiteral => [.literal, .condition]
  | symbolicAtom => [.symbol]
  | comparison => [.term, .guards]
  | guard => [.term]
  | disjunction => [.elements]
  | aggregate | bodyAggregate => [.leftGuard, .elements, .rightGuard]
  | bodyAggregateElement => [.terms, .condition]
  | function => [.arguments, .pool]
  | unaryOperation => [.argument]
  | binaryOperation | interval => [.left, .right]
  | defined | showSignature | program | booleanConstant | var | symbolicTerm => []

theorem mem_all (k : NodeKind) : k ∈ all := by cases k <;> decide

end NodeKind

/-- Default negation in front of a literal. -/
inductive Sign where
  | none
  | negation
  | doubleNegation
deriving DecidableEq, Repr, Inhabited

namespace Sign

/-- The negations in front of a rendered literal. -/
def lead : Sign → String
  | none => ""
  | negation => "not "
  | doubleNegation => "not not "

/-- Every sign, in declaration order. -/
def all : List Sign := [none, negation, doubleNegation]

/-- The name of a sign in written trees. -/
def name : Sign → String
  | none => "NoSign"
  | negation => "Negation"
  | doubleNegation => "DoubleNegation"

/-- The sign of a given name. -/
def ofName? (text : String) : Option Sign := all.find? fun s => s.name == text

end Sign
end AspAtlas
