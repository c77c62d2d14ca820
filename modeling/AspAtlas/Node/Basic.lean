import AspAtlas.Location
import AspAtlas.Node.Kind
/-!
Syntax trees. A node has a kind, a location and named children; `fold` computes bottom-up over a
whole tree, and every walk of the library is an instance of it. Walks enter the non-empty children
that the kind carries, in the order of the kind's fields.
-/
namespace AspAtlas

/-- What a child field holds: one node, or a sequence of them. -/
inductive Child (α : Type) where
  | node (item : α)
  | sequence (items : List α)
deriving Repr, BEq, DecidableEq, Inhabited

namespace Child

variable {α β : Type}

/-- Whether the child is a sequence of nothing. -/
def isEmpty : Child α → Bool
  | node _ => false
  | sequence items => items.isEmpty

/-- The items of a child, in order. -/
def toList : Child α → List α
  | node item => [item]
  | sequence items => items

/-- Applies a function to each item. -/
def map (f : α → β) : Child α → Child β
  | node item => node (f item)
  | sequence items => sequence (items.map f)

@[simp] theorem isEmpty_map (f : α → β) (c : Child α) : (c.map f).isEmpty = c.isEmpty := by
  cases c <;> simp [map, isEmpty]

@[simp] theorem toList_map (f : α → β) (c : Child α) : (c.map f).toList = c.toList.map f := by
  cases c <;> simp [map, toList]

end Child

/-- Children by field. -/
abbrev Children (α : Type) := List (Field × Child α)

namespace Children

variable {α β : Type}

/-- What is stored under a field. -/
def get? (f : Field) : Children α → Option (Child α)
  | [] => none
  | e :: rest => if e.1 = f then some e.2 else get? f rest

/-- The single node stored under a field. -/
def node? (cs : Children α) (f : Field) : Option α :=
  match cs.get? f with
  | some (.node item) => some item
  | _ => none

/-- The sequence stored under a field, empty when there is none. -/
def sequence (cs : Children α) (f : Field) : List α :=
  match cs.get? f with
  | some (.sequence items) => items
  | _ => []

/-- Puts a child into its place, keeping the fields in declaration order. -/
def put (f : Field) (c : Child α) : Children α → Children α
  | [] => [(f, c)]
  | e :: rest =>
    match compare f e.1 with
    | .lt => (f, c) :: e :: rest
    | .eq => (f, c) :: rest
    | .gt => e :: put f c rest

/-- The non-empty children that a kind carries, in the order of its fields. -/
def carried (kind : NodeKind) (cs : Children α) : Children α :=
  kind.childFields.filterMap fun f =>
    match cs.get? f with
    | some c => if c.isEmpty then none else some (f, c)
    | none => none

/-- Applies a function to every item. -/
def mapItems (g : α → β) (cs : Children α) : Children β := cs.map fun e => (e.1, e.2.map g)

theorem get?_mapItems (g : α → β) (f : Field) (cs : Children α) :
    (cs.mapItems g).get? f = (cs.get? f).map (Child.map g) := by
  induction cs with
  | nil => rfl
  | cons e rest ih =>
    simp only [mapItems, List.map_cons, get?] at ih ⊢
    split
    · rfl
    · exact ih

theorem carried_mapItems (g : α → β) (kind : NodeKind) (cs : Children α) :
    carried kind (cs.mapItems g) = mapItems g (carried kind cs) := by
  simp only [carried, mapItems, List.map_filterMap]
  congr 1
  funext f
  have := get?_mapItems g f cs
  simp only [mapItems] at this
  rw [this]
  cases cs.get? f with
  | none => rfl
  | some c => simp only [Option.map_some, Child.isEmpty_map]; split <;> rfl

end Children

/-- A node of a syntax tree. -/
structure Node where
  kind : NodeKind
  location : Location
  /-- The identifier of functions, variables, constants, definitions and signatures. -/
  name : Option String := none
  /-- The declared arity of signature statements. -/
  arity : Option Nat := none
  /-- The operator of guards and arithmetic, the function of aggregates, and `-` on classically
  negated atoms. -/
  operator : Option String := none
  sign : Sign := .none
  /-- The children by field, in declaration order of the fields. -/
  fields : List (Field × Child Node) := []
deriving Repr, Inhabited

namespace Node

deriving instance BEq for Node

section Fold

variable {α : Type}

mutual

/-- Computes bottom-up: `step` gets a node and what its children were mapped to. -/
def fold (step : Node → Children α → α) : Node → α
  | ⟨kind, location, name, arity, operator, sign, fields⟩ =>
    step ⟨kind, location, name, arity, operator, sign, fields⟩ (foldFields step fields)

/-- The children of a node, each mapped. -/
def foldFields (step : Node → Children α → α) : List (Field × Child Node) → Children α
  | [] => []
  | (f, c) :: rest => (f, foldChild step c) :: foldFields step rest

/-- A child, each item mapped. -/
def foldChild (step : Node → Children α → α) : Child Node → Child α
  | .node item => .node (fold step item)
  | .sequence items => .sequence (foldList step items)

/-- A list of nodes, each mapped. -/
def foldList (step : Node → Children α → α) : List Node → List α
  | [] => []
  | item :: rest => fold step item :: foldList step rest

end

theorem foldList_eq (step : Node → Children α → α) (ns : List Node) :
    foldList step ns = ns.map (fold step) := by
  induction ns with
  | nil => rfl
  | cons n ns ih => rw [foldList, ih, List.map_cons]

theorem foldChild_eq (step : Node → Children α → α) (c : Child Node) :
    foldChild step c = c.map (fold step) := by
  cases c with
  | node item => rfl
  | sequence items => rw [foldChild, foldList_eq, Child.map]

theorem foldFields_eq (step : Node → Children α → α) (cs : Children Node) :
    foldFields step cs = cs.mapItems (fold step) := by
  induction cs with
  | nil => rfl
  | cons e rest ih =>
    rw [foldFields, ih, foldChild_eq, Children.mapItems, Children.mapItems, List.map_cons]

/-- A fold meets each node once, with the folded children. -/
theorem fold_eq (step : Node → Children α → α) (n : Node) :
    n.fold step = step n (Children.mapItems (fold step) n.fields) := by
  cases n with
  | mk kind location name arity operator sign fields => rw [fold, foldFields_eq]

end Fold

/-- Puts a child under a field. -/
def withChild (n : Node) (f : Field) (c : Child Node) : Node :=
  { n with fields := Children.put f c n.fields }

/-- Puts one node under a field. -/
def withNode (n : Node) (f : Field) (item : Node) : Node := n.withChild f (.node item)

/-- Puts a sequence under a field, also an empty one. -/
def withSequence (n : Node) (f : Field) (items : List Node) : Node :=
  n.withChild f (.sequence items)

/-- Puts a node under a field, if there is one. -/
def withNode? (n : Node) (f : Field) (item : Option Node) : Node :=
  match item with
  | some item => n.withNode f item
  | none => n

/-- The single node stored under a field. -/
def node? (n : Node) (f : Field) : Option Node := Children.node? n.fields f

/-- The sequence stored under a field, empty when there is none. -/
def sequence (n : Node) (f : Field) : List Node := Children.sequence n.fields f

/-- The non-empty children in the order of the kind's fields. -/
def children (n : Node) : Children Node := Children.carried n.kind n.fields

/-- The nodes of a tree in pre-order, children after their parent; below a node that `enter`
rejects nothing is visited. -/
def visit (enter : Node → Bool) : Node → List Node :=
  fold fun n below =>
    n :: if enter n then (Children.carried n.kind below).flatMap fun e => e.2.toList.flatten else []

theorem visit_eq (enter : Node → Bool) (n : Node) :
    n.visit enter =
      n :: if enter n then n.children.flatMap fun e => e.2.toList.flatMap (visit enter)
      else [] := by
  rw [visit, fold_eq, Children.carried_mapItems]
  simp only [children, Children.mapItems, List.flatMap_map, Child.toList_map]
  congr 1

/-- Whether a node is the atom of a predicate occurrence. -/
def isAtom (n : Node) : Bool := n.kind == .symbolicAtom

end Node
end AspAtlas
