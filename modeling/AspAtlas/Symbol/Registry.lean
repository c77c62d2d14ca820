import AspAtlas.Directive.Index
import AspAtlas.Symbol.Basic
import Std.Data.TreeMap
/-!
The predicates of one file: every occurrence in source order, the last occurrence of a name at each
location, and one merged entry per signature.
-/
namespace AspAtlas

/-- What tells occurrences apart: the name and the location. -/
structure OccurrenceKey where
  name : String
  location : Location

namespace OccurrenceKey

/-- Keys are ordered by place first, so that files are rarely compared. -/
def order : OccurrenceKey → OccurrenceKey → Ordering :=
  compareLex (compareOn (·.location.begin))
    (compareLex (compareOn (·.location.stop))
      (compareLex (compareOn name) (compareOn (·.location.file))))

instance : Ord OccurrenceKey := ⟨order⟩

instance : Std.TransOrd OccurrenceKey :=
  inferInstanceAs (Std.TransCmp (compareLex (compareOn fun k : OccurrenceKey => k.location.begin)
    (compareLex (compareOn fun k : OccurrenceKey => k.location.stop)
      (compareLex (compareOn name) (compareOn fun k : OccurrenceKey => k.location.file)))))

end OccurrenceKey

/-- The key of an occurrence. -/
def Symbol.key (s : Symbol) : OccurrenceKey := ⟨s.name, s.location⟩

/-- Every predicate occurrence of a file, with the merged view by signature. -/
structure SymbolRegistry where
  occurrences : Array Symbol := #[]
  /-- The index of the last occurrence with a name at a location. -/
  byLocation : Std.TreeMap OccurrenceKey Nat := {}
  merged : OrderedMap String Symbol := .empty

namespace SymbolRegistry

/-- The merged entries with one more occurrence. -/
def mergeInto (merged : OrderedMap String Symbol) (s : Symbol) : OrderedMap String Symbol :=
  merged.alter s.signature fun
    | some present => present.merge s
    | none => s

/-- The registry with one more occurrence. -/
def add (r : SymbolRegistry) (s : Symbol) : SymbolRegistry where
  occurrences := r.occurrences.push s
  byLocation := r.byLocation.insert s.key r.occurrences.size
  merged := mergeInto r.merged s

/-- The registry of a list of occurrences. -/
def ofList (symbols : List Symbol) : SymbolRegistry := symbols.foldl add {}

/-- The predicate occurrences below a node, in pre-order; an occurrence inside another one does not
count. -/
def occurrencesIn (n : Node) : List Symbol :=
  (n.visit fun m => !m.isAtom || (Symbol.ofAtom? m).isNone).filterMap fun m =>
    if m.isAtom then Symbol.ofAtom? m else none

/-- The occurrence with the description that directives of a name give for its predicate. -/
def document (directives : DirectiveIndex) (directiveName : String) (s : Symbol) : Symbol :=
  { s with documentation := directives.description? directiveName s.name }

/-- The registry of the statements that belong to a file. -/
def extract (nodes : List Node) (file : Path) (directives : DirectiveIndex)
    (directiveName : String) : SymbolRegistry :=
  .ofList <| (nodes.filter fun n => n.location.isIn file).flatMap fun n =>
    (occurrencesIn n).map (document directives directiveName)

/-- The registered occurrence at an atom; one from elsewhere stands for itself, undocumented. -/
def resolve? (r : SymbolRegistry) (atom : Node) : Option Symbol := do
  let fresh ← Symbol.ofAtom? atom
  match r.byLocation[fresh.key]? with
  | some index => some (r.occurrences.getD index fresh)
  | none => some fresh

/-- The merged entry of a signature. -/
def get? (r : SymbolRegistry) (signature : String) : Option Symbol := r.merged.get? signature

/-- The merged entries, by signature. -/
def symbols (r : SymbolRegistry) : List Symbol := r.merged.values

/-- The signatures, ascending. -/
def signatures (r : SymbolRegistry) : List String := r.merged.keys

end SymbolRegistry
end AspAtlas
