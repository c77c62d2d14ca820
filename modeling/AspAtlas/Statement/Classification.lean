import AspAtlas.Error
import AspAtlas.Statement.Basic
import AspAtlas.Symbol.Registry
/-!
Which statement a top-level node is. An atom below a head is defined, unless it stands in the
condition of a conditional literal; every other atom is a dependency. A rule is then a rule, a fact
or a constraint, as it has definitions and dependencies.
-/
namespace AspAtlas

/-- How a statement uses the predicate of an atom. -/
inductive Usage where
  | defined
  | consumed
deriving DecidableEq, Repr

/-- The predicate occurrences of a statement, by usage and in source order. -/
structure SymbolSets where
  defines : List Symbol := []
  dependsOn : List Symbol := []
deriving BEq

/-- The occurrences with one more behind them. -/
def SymbolSets.add (sets : SymbolSets) (usage : Usage) (s : Symbol) : SymbolSets :=
  match usage with
  | .defined => { sets with defines := sets.defines ++ [s] }
  | .consumed => { sets with dependsOn := sets.dependsOn ++ [s] }

/-- One step of the way from a statement to the node that is visited. -/
inductive TraceStep where
  | kind (kind : NodeKind)
  | field (field : Field)
  | sequence
deriving DecidableEq, Repr

/-- A search for the occurrences of a statement. -/
structure Search where
  /-- The way to the node that is visited, its last step first. -/
  trace : List TraceStep := []
  /-- The occurrences that were met so far. -/
  found : SymbolSets := {}

namespace Search

/-- A part of a search with one more step on the way, which is taken back behind it. -/
def inside (step : TraceStep) (part : Search → Search) (s : Search) : Search :=
  let s := part { s with trace := step :: s.trace }
  { s with trace := s.trace.tail }

/-- How an atom at the end of the way is used. -/
def usage (s : Search) : Usage :=
  if s.trace.contains (.field .head) &&
      !(s.trace.contains (.kind .conditionalLiteral) && s.trace.contains (.field .condition)) then
    .defined
  else .consumed

/-- Takes in an occurrence at the end of the way. -/
def note (s : Search) (symbol : Symbol) : Search := { s with found := s.found.add s.usage symbol }

/-- Goes through what a field holds. -/
def searchChild : Child (Search → Search) → Search → Search
  | .node item => item
  | .sequence items => inside .sequence fun s => items.foldl (fun s item => item s) s

end Search

namespace SymbolRegistry

/-- Goes through a node, given how to go through its children; nothing is looked for inside an
atom. -/
def searchStep (r : SymbolRegistry) (n : Node) (below : Children (Search → Search)) :
    Search → Search :=
  Search.inside (.kind n.kind) fun s =>
    if n.isAtom then
      match r.resolve? n with
      | some symbol => s.note symbol
      | none => s
    else
      (Children.carried n.kind below).foldl
        (fun s e => Search.inside (.field e.1) (Search.searchChild e.2) s) s

/-- Goes through a tree and takes in the occurrences at its atoms. -/
def search (r : SymbolRegistry) (n : Node) : Search → Search := n.fold r.searchStep

/-- The predicate occurrences below a node, separated by usage. -/
def collect (r : SymbolRegistry) (n : Node) : SymbolSets := (r.search n {}).found

end SymbolRegistry

/-- What becomes of a top-level node. -/
inductive Classification where
  /-- The kind of node is not documented. -/
  | ignored
  /-- A rule without any predicate occurrence. -/
  | unclassifiable (location : Location)
  | statement (s : Statement)

namespace Classification

/-- The statement, if there is one. -/
def statement? : Classification → Option Statement
  | statement s => some s
  | _ => none

/-- The statement, if the node is documented; a rule without predicates is an error. -/
def result : Classification → Except Error (Option Statement)
  | ignored => .ok none
  | unclassifiable location => .error (.unclassifiable location)
  | statement s => .ok (some s)

/-- Whether a constraint number was used up. -/
def isConstraint (c : Classification) : Bool :=
  match c with
  | statement s => s.kind == .constraint
  | _ => false

/-- The signature that a statement shows, if it shows a single one. -/
def shownSignature? (n : Node) : Option String :=
  match n.kind with
  | .showSignature =>
    match n.name with
    | some name => if name.isEmpty then none else some (Symbol.signatureOf name (n.arity.getD 0))
    | none => none
  | .showTerm =>
    (n.node? .term).map fun term =>
      match term.kind, term.name with
      | .function, some name =>
        if name.isEmpty then Symbol.signatureOf term.render 0
        else Symbol.signatureOf name (term.sequence .arguments).length
      | .symbolicTerm, some name => Symbol.signatureOf name 0
      | _, _ => Symbol.signatureOf term.render 0
  | _ => none

/-- The name of a numbered constraint. -/
def constraintName (number : Nat) : String := s!"Constraint#{number}"

/-- A rule node, by its definitions and dependencies. -/
def ofRule (number : Nat) (sets : SymbolSets) (location : Location) : Classification :=
  let ⟨defines, dependsOn⟩ := sets
  match defines, dependsOn with
  | [], [] => unclassifiable location
  | [], _ :: _ =>
    statement (.bare .constraint (constraintName number) defines dependsOn location (some number))
  | first :: _, [] => statement (.bare .fact first.signature defines dependsOn location none)
  | first :: _, _ :: _ => statement (.bare .rule first.signature defines dependsOn location none)

/-- Classifies a top-level node; `number` is the one for the next constraint. -/
def ofNode (registry : SymbolRegistry) (number : Nat) (n : Node) : Classification :=
  let sets := registry.collect n
  let declared (kind : StatementKind) (identity : String) : Classification :=
    statement (.bare kind identity sets.defines sets.dependsOn n.location none)
  match n.kind with
  | .rule => ofRule number sets n.location
  | .defined => declared .input (Symbol.signatureOf (n.name.getD "") (n.arity.getD 0))
  | .definition => declared .definition (n.name.getD "")
  | .showSignature | .showTerm =>
    match shownSignature? n with
    | some signature => declared .output signature
    | none => ignored
  | _ => ignored

/-- Classifies top-level nodes, numbering the constraints from `number` on. -/
def ofNodesFrom (registry : SymbolRegistry) (number : Nat) : List Node → List Classification
  | [] => []
  | n :: rest =>
    let c := ofNode registry number n
    c :: ofNodesFrom registry (if c.isConstraint then number + 1 else number) rest

/-- Classifies the top-level nodes of a program. -/
def ofNodes (registry : SymbolRegistry) (nodes : List Node) : List Classification :=
  ofNodesFrom registry 0 nodes

end Classification
end AspAtlas
