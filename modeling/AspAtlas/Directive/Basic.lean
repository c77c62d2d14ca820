import AspAtlas.Checked
import AspAtlas.Location
/-!
Directives: named annotations with parameters, found in source lines. The first parameter is the
subject that a directive documents.
-/
namespace AspAtlas

/-- An annotation of the form `@name(subject, ...) -> description`. -/
structure Directive where
  name : String
  parameters : List String
  description : Option String
  /-- The zero-based index of the line it was found on. -/
  lineNumber : Nat
  sourceFile : Path
deriving BEq, Repr, Inhabited

namespace Directive

/-- The predicate, variable or section that the directive is about. -/
def subject (d : Directive) : String := d.parameters.head?.getD ""

/-- The name with the subject, which identifies a directive. -/
def key (d : Directive) : String := s!"{d.name}_{d.subject}"

/-- Whether the directive stands above a one-based line. -/
def precedes (d : Directive) (line : Nat) : Bool := decide (d.lineNumber + 1 < line)

/-- Whether the directive stands above a one-based line, if its own one-based line has 64 bits. -/
def precedes? (d : Directive) (line : Nat) : Option Bool :=
  (addWords? d.lineNumber 1).map fun own => decide (own < line)

end Directive
end AspAtlas
