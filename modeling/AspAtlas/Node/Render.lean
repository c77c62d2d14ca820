import AspAtlas.Node.Basic
/-!
Source-like text of nodes. Rendering drops parentheses around single terms and all optional blanks;
statements render as the name of their kind.
-/
namespace AspAtlas.Node

/-- The text of a node, with the texts of its arguments, which a surrounding pool shows without
parentheses. -/
structure Rendering where
  text : String
  arguments : List String

/-- The texts of a rendered sequence, joined. -/
def joined (separator : String) (items : List Rendering) : String :=
  separator.intercalate (items.map Rendering.text)

/-- An element with its condition, when there is one. -/
def conditioned (element : String) (condition : List Rendering) : String :=
  if condition.isEmpty then element else element ++ ": " ++ joined ", " condition

/-- The text of a node from the texts of its children. -/
def renderText (n : Node) (below : Children Rendering) : String :=
  let name := n.name.getD ""
  let operator := n.operator.getD ""
  let one (f : Field) : String := ((below.node? f).map Rendering.text).getD ""
  match n.kind with
  | .var | .symbolicTerm => name
  | .function =>
    let arguments := below.sequence .arguments
    let pool := below.sequence .pool
    if arguments.isEmpty && pool.isEmpty && !name.isEmpty then name
    else
      let alternatives := joined "," arguments :: pool.map fun r => ",".intercalate r.arguments
      name ++ "(" ++ ";".intercalate alternatives ++ ")"
  | .unaryOperation =>
    if operator == "|" then "|" ++ one .argument ++ "|" else operator ++ one .argument
  | .binaryOperation => one .left ++ operator ++ one .right
  | .interval => one .left ++ ".." ++ one .right
  | .booleanConstant => "#" ++ name
  | .symbolicAtom => operator ++ one .symbol
  | .literal => n.sign.lead ++ one .atom
  | .comparison => one .term ++ joined "" (below.sequence .guards)
  | .guard => operator ++ one .term
  | .conditionalLiteral => conditioned (one .literal) (below.sequence .condition)
  | .disjunction => joined "; " (below.sequence .elements)
  | .aggregate =>
    one .leftGuard ++ "\x7b " ++ joined "; " (below.sequence .elements) ++ " \x7d" ++
      one .rightGuard
  | .bodyAggregate =>
    one .leftGuard ++ "#" ++ operator ++ "\x7b " ++
      joined "; " (below.sequence .elements) ++ " \x7d" ++ one .rightGuard
  | .bodyAggregateElement =>
    conditioned (joined "," (below.sequence .terms)) (below.sequence .condition)
  | kind => kind.name

/-- The rendering of a node from those of its children. -/
def renderStep (n : Node) (below : Children Rendering) : Rendering :=
  ⟨renderText n below, (below.sequence .arguments).map Rendering.text⟩

/-- The source-like text of a node. -/
def render (n : Node) : String := (n.fold renderStep).text

/-- The name and argument count of the predicate that an atom refers to. -/
def predicate? (n : Node) : Option (String × Nat) :=
  if n.isAtom then
    match n.node? .symbol with
    | some symbol =>
      match symbol.kind with
      | .function => some (symbol.name.getD "", (symbol.sequence .arguments).length)
      | .symbolicTerm => some (symbol.name.getD "", 0)
      | _ => none
    | none => none
  else none

/-- The rendered arguments of a predicate occurrence. -/
def predicateArguments (n : Node) : List String :=
  match n.node? .symbol with
  | some symbol => (symbol.sequence .arguments).map render
  | none => []

end AspAtlas.Node
