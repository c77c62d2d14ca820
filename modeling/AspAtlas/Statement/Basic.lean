import AspAtlas.Directive.Basic
import AspAtlas.Ordered.Set
import AspAtlas.Symbol.Basic
/-!
Statements: the documented units of a program, with the predicates that each defines and depends on.
-/
namespace AspAtlas

/-- The documented kinds of statements. -/
inductive StatementKind where
  | rule
  | fact
  | constraint
  | definition
  | input
  | output
deriving DecidableEq, Repr, Inhabited

namespace StatementKind

/-- Every kind, in declaration order. -/
def all : List StatementKind := [rule, fact, constraint, definition, input, output]

/-- The name of a kind. -/
def name : StatementKind → String
  | rule => "Rule"
  | fact => "Fact"
  | constraint => "Constraint"
  | definition => "Definition"
  | input => "Input"
  | output => "Output"

/-- The kind of a given name. -/
def ofName? (text : String) : Option StatementKind := all.find? fun k => k.name == text

/-- Whether statements of the kind take part in the statement graph. -/
def isRuleShaped : StatementKind → Bool
  | rule | fact | constraint => true
  | definition | input | output => false

end StatementKind

/-- A documented unit of a program. -/
structure Statement where
  kind : StatementKind
  /-- The first defined signature of rules and facts, a numbered name of constraints, and the
  declared name of all others. -/
  identity : String
  /-- The predicate occurrences that the statement defines, in source order. -/
  defines : List Symbol
  /-- All other predicate occurrences of the statement, in source order. -/
  dependsOn : List Symbol
  comments : List String
  /-- The section directive that the statement stands under. -/
  heading : Option Directive
  location : Location
  sourceFile : Path
  /-- What tells statements of several documented files apart: `dir.file.`. -/
  qualifier : String
  /-- The source text, when it was asked for. -/
  source : Option String
  /-- The number given to a constraint. -/
  number : Option Nat
deriving BEq

namespace Statement

/-- A statement without comments, heading, qualifier and source text. -/
def bare (kind : StatementKind) (identity : String) (defines dependsOn : List Symbol)
    (location : Location) (number : Option Nat) : Statement where
  kind
  identity
  defines
  dependsOn
  comments := []
  heading := none
  location
  sourceFile := location.file
  qualifier := ""
  source := none
  number

/-- The signatures of some predicate occurrences. -/
def signatures (symbols : List Symbol) : OrderedSet String := .ofList (symbols.map (·.signature))

/-- The signatures that the statement defines. -/
def definedSignatures (s : Statement) : OrderedSet String := signatures s.defines

/-- The signatures that the statement depends on. -/
def dependencySignatures (s : Statement) : OrderedSet String := signatures s.dependsOn

/-- Whether `s` defines something that `t` depends on. -/
def feeds (s t : Statement) : Bool :=
  s.defines.any fun a => t.dependsOn.any fun b => a.signature == b.signature

/-- The identity with the line range. -/
def label (s : Statement) : String := s!"{s.identity}; l{s.location.lineSpan}"

/-- The identity behind the qualifier. -/
def displayName (s : Statement) : String := s.qualifier ++ s.identity

/-- The number of a constraint; other kinds have none. -/
def constraintIndex (s : Statement) : Option Nat :=
  if s.kind = .constraint then s.number else none

/-- Whether the statement stands in `file`. -/
def isIn (s : Statement) (file : Path) : Bool := s.sourceFile == file

end Statement
end AspAtlas
