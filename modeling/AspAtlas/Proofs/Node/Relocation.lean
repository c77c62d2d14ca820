import AspAtlas.Proofs.Node.Routes
import AspAtlas.Symbol.Basic
/-!
Moving a tree to another file. Nothing but the file of the locations changes.
-/
namespace AspAtlas

namespace Location

/-- The span in another file. -/
def moveTo (l : Location) (file : Path) : Location := { l with file }

@[simp] theorem moveTo_file (l : Location) (file : Path) : (l.moveTo file).file = file := rfl

@[simp] theorem moveTo_begin (l : Location) (file : Path) : (l.moveTo file).begin = l.begin := rfl

@[simp] theorem moveTo_stop (l : Location) (file : Path) : (l.moveTo file).stop = l.stop := rfl

@[simp] theorem moveTo_mk (p file : Path) (begin stop : Position) :
    (Location.mk p begin stop).moveTo file = ⟨file, begin, stop⟩ := rfl

end Location

namespace Child

variable {α β γ : Type}

theorem map_map (g : β → γ) (f : α → β) (c : Child α) : (c.map f).map g = c.map (g ∘ f) := by
  cases c <;> simp [map]

theorem map_congr {f g : α → β} {c : Child α} (h : ∀ a ∈ c.toList, f a = g a) :
    c.map f = c.map g := by
  cases c <;> simp_all [map, toList]

end Child

namespace Children

variable {α β γ : Type}

theorem mapItems_mapItems (g : β → γ) (f : α → β) (cs : Children α) :
    (cs.mapItems f).mapItems g = cs.mapItems (g ∘ f) := by
  simp [mapItems, Child.map_map, Function.comp_def]

theorem mapItems_put (g : α → β) (f : Field) (c : Child α) (cs : Children α) :
    (put f c cs).mapItems g = put f (c.map g) (cs.mapItems g) := by
  induction cs with
  | nil => rfl
  | cons e rest ih =>
    simp only [mapItems, List.map_cons, put] at ih ⊢
    cases hc : compare f e.1 with
    | lt => rfl
    | eq => rfl
    | gt => simp [ih]

theorem mapItems_congr {f g : α → β} {cs : Children α}
    (h : ∀ e ∈ cs, ∀ a ∈ e.2.toList, f a = g a) : cs.mapItems f = cs.mapItems g := by
  refine List.map_congr_left fun e he => ?_
  rw [Child.map_congr (h e he)]

theorem node?_mapItems (g : α → β) (f : Field) (cs : Children α) :
    (cs.mapItems g).node? f = (cs.node? f).map g := by
  simp only [node?, get?_mapItems]
  cases cs.get? f with
  | none => rfl
  | some c => cases c <;> rfl

theorem sequence_mapItems (g : α → β) (f : Field) (cs : Children α) :
    (cs.mapItems g).sequence f = (cs.sequence f).map g := by
  simp only [sequence, get?_mapItems]
  cases cs.get? f with
  | none => rfl
  | some c => cases c <;> rfl

end Children

namespace Node

/-- The tree with all its locations in another file. -/
def relocate (file : Path) : Node → Node :=
  fold fun n below => { n with location := n.location.moveTo file, fields := below }

theorem relocate_eq (file : Path) (n : Node) :
    n.relocate file =
      { n with
        location := n.location.moveTo file
        fields := Children.mapItems (relocate file) n.fields } := by
  rw [relocate, fold_eq]

variable (file : Path) (n : Node)

@[simp] theorem kind_relocate : (n.relocate file).kind = n.kind := by rw [relocate_eq]

@[simp] theorem name_relocate : (n.relocate file).name = n.name := by rw [relocate_eq]

@[simp] theorem arity_relocate : (n.relocate file).arity = n.arity := by rw [relocate_eq]

@[simp] theorem isAtom_relocate : (n.relocate file).isAtom = n.isAtom := by simp [isAtom]

@[simp] theorem location_relocate : (n.relocate file).location = n.location.moveTo file := by
  rw [relocate_eq]

@[simp] theorem items_relocate (f : Field) :
    (n.relocate file).items f = (n.items f).map (relocate file) := by
  rw [relocate_eq]
  exact items_mapItems (relocate file) n f

@[simp] theorem node?_relocate (f : Field) :
    (n.relocate file).node? f = (n.node? f).map (relocate file) := by
  rw [relocate_eq]
  exact Children.node?_mapItems (relocate file) f n.fields

@[simp] theorem sequence_relocate (f : Field) :
    (n.relocate file).sequence f = (n.sequence f).map (relocate file) := by
  rw [relocate_eq]
  exact Children.sequence_mapItems (relocate file) f n.fields

@[simp] theorem relocate_leaf (kind : NodeKind) (location : Location) (name : Option String)
    (arity : Option Nat) (operator : Option String) (sign : Sign) :
    relocate file ⟨kind, location, name, arity, operator, sign, []⟩ =
      ⟨kind, location.moveTo file, name, arity, operator, sign, []⟩ := by
  rw [relocate_eq]
  rfl

theorem relocate_withOperator (operator : Option String) :
    relocate file { n with operator } = { n.relocate file with operator } := by
  rw [relocate_eq, relocate_eq file n]

theorem relocate_withName (name : Option String) :
    relocate file { n with name } = { n.relocate file with name } := by
  rw [relocate_eq, relocate_eq file n]

@[simp] theorem relocate_withNode (f : Field) (m : Node) :
    (n.withNode f m).relocate file = (n.relocate file).withNode f (m.relocate file) := by
  simp [relocate_eq, withNode, withChild, Children.mapItems_put, Child.map]

@[simp] theorem relocate_withSequence (f : Field) (ms : List Node) :
    (n.withSequence f ms).relocate file =
      (n.relocate file).withSequence f (ms.map (relocate file)) := by
  simp [relocate_eq, withSequence, withChild, Children.mapItems_put, Child.map]

@[simp] theorem relocate_withNode? (f : Field) (m : Option Node) :
    (n.withNode? f m).relocate file =
      (n.relocate file).withNode? f (m.map (relocate file)) := by
  cases m <;> simp [withNode?]

omit file in
/-- A walk that reads neither locations nor children finds the same in
a tree with other locations. -/
theorem fold_moved {α : Type} {move : Node → Node} {place : Node → Location}
    (hmove : ∀ n, move n =
      { n with location := place n, fields := Children.mapItems move n.fields })
    (step : Node → Children α → α)
    (h : ∀ n below location fields, step { n with location, fields } below = step n below) :
    (move n).fold step = n.fold step := by
  induction n using Node.induction_fields with
  | step n ih =>
    rw [hmove, fold_eq, h, Children.mapItems_mapItems, fold_eq step n]
    congr 1
    refine Children.mapItems_congr fun e he m hm => ?_
    exact ih e he m hm

theorem fold_relocate {α : Type} (step : Node → Children α → α)
    (h : ∀ n below location fields, step { n with location, fields } below = step n below) :
    (n.relocate file).fold step = n.fold step :=
  fold_moved n (relocate_eq file) step h

theorem render_relocate : (n.relocate file).render = n.render := by
  rw [render, fold_relocate, render]
  intro n below location fields
  rfl

theorem predicate?_relocate : (n.relocate file).predicate? = n.predicate? := by
  simp only [predicate?, isAtom_relocate, node?_relocate]
  cases n.node? .symbol <;> simp

theorem predicateArguments_relocate :
    (n.relocate file).predicateArguments = n.predicateArguments := by
  simp only [predicateArguments, node?_relocate]
  cases n.node? .symbol <;> simp [render_relocate]

/-- The routes of the moved tree lead to the moved atoms. -/
theorem routes_relocate :
    (n.relocate file).routes = n.routes.map fun x => (x.1, x.2.relocate file) := by
  induction n using Node.induction with
  | step n ih =>
    rw [routes_eq, routes_eq n, isAtom_relocate, kind_relocate]
    by_cases h : n.isAtom = true
    · simp [h]
    simp only [h, Bool.false_eq_true, if_false, List.map_flatMap, items_relocate, List.zipIdx_map,
      List.flatMap_map]
    refine List.flatMap_congr fun f _ => ?_
    refine List.flatMap_congr fun x hx => ?_
    have hmem : x.1 ∈ n.items f := List.mem_of_getElem? (List.mem_zipIdx_iff_getElem?.mp hx)
    simp [ih f x.1 hmem]

theorem topAtoms_relocate : (n.relocate file).topAtoms = n.topAtoms.map (relocate file) := by
  rw [topAtoms, routes_relocate, List.map_map, topAtoms, List.map_map]
  rfl

/-- Every node of a moved tree stands in the new file. -/
theorem file_of_mem_visit_relocate (enter : Node → Bool) {m : Node}
    (hm : m ∈ (n.relocate file).visit enter) : m.location.file = file := by
  induction n using Node.induction with
  | step n ih =>
    rw [visit_eq_items] at hm
    rcases List.mem_cons.mp hm with rfl | hm
    · simp
    split at hm
    · simp only [kind_relocate, items_relocate, List.flatMap_map, List.mem_flatMap] at hm
      obtain ⟨f, -, c, hc, hm⟩ := hm
      exact ih f c hc hm
    · simp at hm

end Node

/-- An occurrence in another file. -/
def Symbol.moveTo (s : Symbol) (file : Path) : Symbol :=
  { s with location := s.location.moveTo file }

theorem Symbol.ofAtom?_relocate (file : Path) (n : Node) :
    Symbol.ofAtom? (n.relocate file) = (Symbol.ofAtom? n).map fun s => s.moveTo file := by
  simp only [ofAtom?, Node.predicate?_relocate, Node.predicateArguments_relocate,
    Node.node?_relocate, Node.location_relocate]
  cases n.predicate? with
  | none => rfl
  | some x =>
    cases h : n.node? .symbol with
    | none => rfl
    | some symbol => simp [Symbol.moveTo, occurrence]

end AspAtlas
