import AspAtlas.Directive.Basic
/-!
Directives grouped by name. Groups stand in the order in which their names first appear, directives
in the order of their subjects; a second directive on a subject only fills in a missing description.
-/
namespace AspAtlas

/-- The directives of one name. -/
structure DirectiveGroup where
  name : String
  directives : List Directive
deriving BEq, Repr

namespace DirectiveGroup

/-- Fills in the description of the directive on the same subject, or adds the directive. -/
def place (d : Directive) : List Directive → List Directive
  | [] => [d]
  | e :: rest =>
    if e.subject == d.subject then
      { e with description := e.description <|> d.description } :: rest
    else e :: place d rest

end DirectiveGroup

/-- Directives grouped by name. -/
structure DirectiveIndex where
  groups : List DirectiveGroup := []
deriving BEq, Repr, Inhabited

namespace DirectiveIndex

/-- Puts a directive into the group of its name, or opens one at the end. -/
def placeGroup (d : Directive) : List DirectiveGroup → List DirectiveGroup
  | [] => [⟨d.name, [d]⟩]
  | g :: rest =>
    if g.name == d.name then { g with directives := DirectiveGroup.place d g.directives } :: rest
    else g :: placeGroup d rest

/-- The index with one more directive. -/
def insert (index : DirectiveIndex) (d : Directive) : DirectiveIndex :=
  ⟨placeGroup d index.groups⟩

/-- The directives, group by group. -/
def toList (index : DirectiveIndex) : List Directive := index.groups.flatMap (·.directives)

/-- The index of a list of directives. -/
def ofList (ds : List Directive) : DirectiveIndex := ds.foldl insert {}

/-- The index with the directives of another one inserted. -/
def extend (index other : DirectiveIndex) : DirectiveIndex := other.toList.foldl insert index

/-- The directives of a name. -/
def get (index : DirectiveIndex) (name : String) : List Directive :=
  match index.groups.find? fun g => g.name == name with
  | some g => g.directives
  | none => []

/-- The first directive of a name on a subject. -/
def find? (index : DirectiveIndex) (name subject : String) : Option Directive :=
  (index.get name).find? fun d => d.subject == subject

/-- The description of the directive of a name on a subject. -/
def description? (index : DirectiveIndex) (name subject : String) : Option String :=
  (index.find? name subject).bind (·.description)

/-- The names, in the order of their first appearance. -/
def names (index : DirectiveIndex) : List String := index.groups.map (·.name)

/-- The number of directives. -/
def size (index : DirectiveIndex) : Nat := (index.groups.flatMap (·.directives)).length

/-- Whether there is no group. -/
def isEmpty (index : DirectiveIndex) : Bool := index.groups.isEmpty

end DirectiveIndex
end AspAtlas
