import AspAtlas.Checked
import AspAtlas.Node.Render
import AspAtlas.Ordered.Map
/-!
Predicate occurrences, and merging the occurrences of one signature into one entry. In a merge
counts add up, and the earliest location wins along with its documentation.
-/
namespace AspAtlas

/-- A predicate occurrence, or several of one signature merged. -/
structure Symbol where
  name : String
  arity : Nat
  /-- The name with the arity, `name/arity`. -/
  signature : String
  /-- Rendered argument lists, with the number of times each occurs. -/
  arguments : OrderedMap String Nat
  location : Location
  documentation : Option String
  occurrenceCount : Nat
deriving BEq

namespace Symbol

/-- The signature of a name and an arity. -/
def signatureOf (name : String) (arity : Nat) : String := s!"{name}/{arity}"

/-- A rendered argument list. -/
def argumentList (arguments : List String) : String := "(" ++ ",".intercalate arguments ++ ")"

/-- A single occurrence. -/
def occurrence (name : String) (arguments : List String) (location : Location)
    (documentation : Option String) : Symbol where
  name
  arity := arguments.length
  signature := signatureOf name arguments.length
  arguments := OrderedMap.empty.insert (argumentList arguments) 1
  location
  documentation
  occurrenceCount := 1

/-- The occurrence at an atom, without documentation. -/
def ofAtom? (atom : Node) : Option Symbol := do
  let (name, _) ← atom.predicate?
  let location := match atom.node? .symbol with
    | some symbol => symbol.location
    | none => atom.location
  some (occurrence name atom.predicateArguments location none)

/-- Counts argument lists together. -/
def mergeArguments (a b : OrderedMap String Nat) : OrderedMap String Nat :=
  b.entries.foldl (fun m e => m.alter e.1 fun count => count.getD 0 + e.2) a

/-- Two entries of one signature in one. -/
def merge (a b : Symbol) : Symbol :=
  let merged :=
    { a with
      arguments := mergeArguments a.arguments b.arguments
      occurrenceCount := a.occurrenceCount + b.occurrenceCount }
  if compare b.location a.location = .lt then
    { merged with location := b.location, documentation := b.documentation <|> a.documentation }
  else { merged with documentation := a.documentation <|> b.documentation }

/-- Counts argument lists together, if all sums have 64 bits. -/
def mergeArguments? (a b : OrderedMap String Nat) : Option (OrderedMap String Nat) :=
  b.entries.foldlM (fun m e =>
    (addWords? ((m.get? e.1).getD 0) e.2).map fun sum => m.insert e.1 sum) a

/-- Two entries of one signature in one, if all sums of their counts have 64 bits. -/
def merge? (a b : Symbol) : Option Symbol := do
  let arguments ← mergeArguments? a.arguments b.arguments
  let occurrenceCount ← addWords? a.occurrenceCount b.occurrenceCount
  some { a.merge b with arguments, occurrenceCount }

end Symbol
end AspAtlas
