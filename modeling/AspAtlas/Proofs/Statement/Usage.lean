import AspAtlas.Proofs.Node.Routes
import AspAtlas.Proofs.Statement.Search
/-!
What an atom is used for can be read off its route. The walk that sorts the atoms of a statement
agrees with the enumeration of all routes, and the kind of a rule follows from the two sets.
-/
namespace AspAtlas

/-- An atom at the end of a route is defined when the route passes a head, and not both a
conditional literal and a condition. -/
def Route.IsDefinition (r : Route) : Prop :=
  (∃ x ∈ r, x.field = .head) ∧
    ¬((∃ x ∈ r, x.kind = .conditionalLiteral) ∧ ∃ x ∈ r, x.field = .condition)

instance : DecidablePred Route.IsDefinition := fun _ => inferInstanceAs (Decidable (_ ∧ ¬(_ ∧ _)))

/-- How an atom at the end of a route is used. -/
def Route.usage (r : Route) : Usage := if r.IsDefinition then .defined else .consumed

namespace Trail

/-- The trail at the end of a route. -/
def along (t : Trail) (r : Route) : Trail :=
  r.foldl (fun t x => (t.enterKind x.kind).enterField x.field) t

theorem along_cons (t : Trail) (x : Step) (r : Route) :
    t.along (x :: r) = ((t.enterKind x.kind).enterField x.field).along r := rfl

theorem head_along (t : Trail) (r : Route) :
    (t.along r).head = true ↔ t.head = true ∨ ∃ x ∈ r, x.field = .head := by
  induction r generalizing t with
  | nil => simp [along]
  | cons x r ih =>
    rw [along_cons, ih]
    simp [enterKind, enterField, or_assoc]

theorem conditional_along (t : Trail) (r : Route) :
    (t.along r).conditional = true ↔
      t.conditional = true ∨ ∃ x ∈ r, x.kind = .conditionalLiteral := by
  induction r generalizing t with
  | nil => simp [along]
  | cons x r ih =>
    rw [along_cons, ih]
    simp [enterKind, enterField, or_assoc]

theorem condition_along (t : Trail) (r : Route) :
    (t.along r).condition = true ↔ t.condition = true ∨ ∃ x ∈ r, x.field = .condition := by
  induction r generalizing t with
  | nil => simp [along]
  | cons x r ih =>
    rw [along_cons, ih]
    simp [enterKind, enterField, or_assoc]

/-- The flags of the trail say of a whole route what the route itself says. -/
theorem usage_along (r : Route) :
    ((along {} r).enterKind .symbolicAtom).usage = r.usage := by
  refine if_congr ?_ rfl rfl
  have hhead := head_along {} r
  have hconditional := conditional_along {} r
  have hcondition := condition_along {} r
  simp only [Bool.false_eq_true, false_or] at hhead hconditional hcondition
  rw [Route.IsDefinition, ← hhead, ← hconditional, ← hcondition]
  cases h : (along {} r).conditional <;> simp [enterKind, h]

end Trail

namespace Node

theorem kind_of_isAtom {n : Node} (h : n.isAtom = true) : n.kind = .symbolicAtom := by
  simpa [isAtom] using h

/-- Carrying the trail down finds the atoms at the ends of the routes, one after another. -/
theorem fold_atomStep (n : Node) (t : Trail) :
    n.fold atomStep t =
      n.routes.map fun x => (((t.along x.1).enterKind .symbolicAtom).usage, x.2) := by
  induction n using Node.induction generalizing t with
  | step n ih =>
    rw [fold_eq, atomStep, routes_eq]
    split
    · rename_i h
      simp [Trail.along, kind_of_isAtom h]
    · rw [Children.flatMap_carried n.kind _ (fun f (found : List (Trail → List (Usage × Node))) =>
        found.flatMap fun atoms => atoms ((t.enterKind n.kind).enterField f)) (by simp)]
      rw [List.map_flatMap]
      refine List.flatMap_congr fun f _ => ?_
      rw [items_mapItems, List.flatMap_map, List.map_flatMap]
      conv_lhs => rw [← List.zipIdx_map_fst 0 (n.items f), List.flatMap_map]
      refine List.flatMap_congr fun x hx => ?_
      rw [ih f x.1 (List.mem_of_getElem? (List.mem_zipIdx_iff_getElem?.mp hx)), List.map_map]
      rfl

theorem atoms_eq_routes (n : Node) : n.atoms = n.routes.map fun x => (x.1.usage, x.2) := by
  rw [atoms, fold_atomStep]
  simp only [Trail.usage_along]

end Node

namespace SymbolRegistry

/-- The occurrences that are defined at the ends of some routes. -/
def definedAt (r : SymbolRegistry) (found : List (Route × Node)) : List Symbol :=
  found.filterMap fun x => if x.1.IsDefinition then r.resolve? x.2 else none

/-- All other occurrences at the ends of some routes. -/
def consumedAt (r : SymbolRegistry) (found : List (Route × Node)) : List Symbol :=
  found.filterMap fun x => if x.1.IsDefinition then none else r.resolve? x.2

theorem collect_eq_routes (r : SymbolRegistry) (n : Node) :
    r.collect n = ⟨r.definedAt n.routes, r.consumedAt n.routes⟩ := by
  simp only [collect_eq, usages, resolved, Node.atoms_eq_routes, List.filterMap_map,
    List.filterMap_filterMap, definedAt, consumedAt, SymbolSets.mk.injEq]
  constructor <;>
  · refine List.filterMap_congr fun x _ => ?_
    by_cases h : x.1.IsDefinition <;> cases hr : r.resolve? x.2 <;>
      simp [Route.usage, h, hr]

end SymbolRegistry

namespace Classification

/-- What a rule node becomes, told from the occurrences that it defines and depends on. -/
structure Reflects (c : Classification) (n : Node) (defines dependsOn : List Symbol) : Prop where
  unclassifiable : c = .unclassifiable n.location ↔ defines = [] ∧ dependsOn = []
  constraint : (∃ s, c = .statement s ∧ s.kind = .constraint) ↔ defines = [] ∧ dependsOn ≠ []
  fact : (∃ s, c = .statement s ∧ s.kind = .fact) ↔ defines ≠ [] ∧ dependsOn = []
  rule : (∃ s, c = .statement s ∧ s.kind = .rule) ↔ defines ≠ [] ∧ dependsOn ≠ []
  identity : ∀ s first rest, c = .statement s → defines = first :: rest →
    s.identity = first.signature
  sets : ∀ s, c = .statement s → s.defines = defines ∧ s.dependsOn = dependsOn

theorem ofRule_reflects (number : Nat) (n : Node) (defines dependsOn : List Symbol) :
    (ofRule number ⟨defines, dependsOn⟩ n.location).Reflects n defines dependsOn := by
  cases defines <;> cases dependsOn <;> constructor <;> simp_all [ofRule, Statement.bare]

theorem ofNode_rule (r : SymbolRegistry) (number : Nat) {n : Node} (h : n.kind = .rule) :
    ofNode r number n = ofRule number (r.collect n) n.location := by
  simp [ofNode, h]

end Classification

/-- The occurrences of a statement are those at the ends of its routes, in pre-order: an atom is
defined when its route says so, and a dependency otherwise. What a rule is classified as depends on
which of the two sets are empty, and nothing else. -/
theorem SymbolRegistry.collect_by_route (r : SymbolRegistry) (n : Node) :
    ∃ found, n.Enumerates found ∧ (∀ other, n.Enumerates other → other = found) ∧
      (r.collect n).defines = r.definedAt found ∧ (r.collect n).dependsOn = r.consumedAt found ∧
      ∀ number, n.kind = .rule →
        (Classification.ofNode r number n).Reflects n (r.definedAt found) (r.consumedAt found) := by
  refine ⟨n.routes, n.routes_enumerates, ?_, ?_, ?_, ?_⟩
  · intro other h
    exact h.eq n.routes_enumerates
  · rw [collect_eq_routes]
  · rw [collect_eq_routes]
  · intro number h
    rw [Classification.ofNode_rule r number h, collect_eq_routes]
    exact Classification.ofRule_reflects number n _ _

end AspAtlas
