import AspAtlas.Proofs.Directive.Relocation
import AspAtlas.Proofs.Node.Relocation
import AspAtlas.Proofs.Statement.Usage
import Mathlib.Data.List.Forall2
/-!
Statements that say the same. A top-level node becomes the same statement in every file and under
every registry that finds its atoms, but for the number of a constraint and the documentation of its
predicates.
-/
namespace AspAtlas

theorem Location.moveTo_beq_moveTo (l : Location) {p q : Path} (h : p.components = q.components) :
    (l.moveTo p == l.moveTo q) = true := by
  have hpath : (p == q) = true := Path.beq_iff.mpr h
  change instBEqLocation.beq _ _ = true
  simp [instBEqLocation.beq, moveTo, hpath]

theorem Location.beq_iff {l m : Location} :
    (l == m) = true ↔ (l.file == m.file) = true ∧ l.begin = m.begin ∧ l.stop = m.stop := by
  change instBEqLocation.beq _ _ = true ↔ _
  simp [instBEqLocation.beq]

/-- Occurrences are alike when they differ in nothing but their documentation. -/
structure Symbol.Alike (s t : Symbol) : Prop where
  name : s.name = t.name
  arity : s.arity = t.arity
  signature : s.signature = t.signature
  arguments : s.arguments = t.arguments
  location : (s.location == t.location) = true
  occurrenceCount : s.occurrenceCount = t.occurrenceCount

/-- Statements are alike when they differ in nothing but their qualifiers, the numbers of
constraints and the documentation of their predicates. -/
structure Statement.Alike (s t : Statement) : Prop where
  kind : s.kind = t.kind
  identity : s.kind ≠ .constraint → s.identity = t.identity ∧ s.number = t.number
  numbered : s.kind = .constraint → ∃ i j,
    s.identity = Classification.constraintName i ∧ s.number = some i ∧
      t.identity = Classification.constraintName j ∧ t.number = some j
  defines : List.Forall₂ Symbol.Alike s.defines t.defines
  dependsOn : List.Forall₂ Symbol.Alike s.dependsOn t.dependsOn
  comments : s.comments = t.comments
  heading : (s.heading == t.heading) = true
  location : (s.location == t.location) = true
  sourceFile : (s.sourceFile == t.sourceFile) = true
  source : s.source = t.source

/-- Top-level nodes are classified alike when their statements are, if they have any. -/
inductive Classification.Alike : Classification → Classification → Prop
  | ignored : Alike .ignored .ignored
  | unclassifiable {l m : Location} (h : (l == m) = true) :
      Alike (.unclassifiable l) (.unclassifiable m)
  | statement {s t : Statement} (h : s.Alike t) : Alike (.statement s) (.statement t)

/-- A registry is faithful to a node when it finds every atom as what the atom itself says, apart
from documentation. -/
def SymbolRegistry.Faithful (r : SymbolRegistry) (n : Node) : Prop :=
  ∀ a ∈ n.topAtoms, ∃ s documentation, Symbol.ofAtom? a = some s ∧
    r.resolve? a = some { s with documentation }

section Moved

variable {p q : Path} {r r' : SymbolRegistry} {n : Node}

/-- Faithful registries find like occurrences at an atom, in whatever file it stands. -/
theorem SymbolRegistry.Faithful.resolve_alike (hpq : p.components = q.components)
    (h : r.Faithful (n.relocate p)) (h' : r'.Faithful (n.relocate q)) {a : Node}
    (ha : a ∈ n.topAtoms) :
    ∃ s t, r.resolve? (a.relocate p) = some s ∧ r'.resolve? (a.relocate q) = some t ∧
      s.Alike t := by
  rw [Faithful, Node.topAtoms_relocate] at h h'
  obtain ⟨s, documentation, hs, hr⟩ := h _ (List.mem_map_of_mem ha)
  obtain ⟨t, documentation', ht, hr'⟩ := h' _ (List.mem_map_of_mem ha)
  rw [Symbol.ofAtom?_relocate] at hs ht
  obtain ⟨fresh, hfresh, rfl⟩ := Option.map_eq_some_iff.mp hs
  rw [hfresh, Option.map_some, Option.some.injEq] at ht
  subst ht
  refine ⟨_, _, hr, hr', ⟨rfl, rfl, rfl, rfl, ?_, rfl⟩⟩
  exact fresh.location.moveTo_beq_moveTo hpq

theorem SymbolRegistry.Faithful.resolved_alike (keep : Route → Prop) [DecidablePred keep]
    (hpq : p.components = q.components) (h : r.Faithful (n.relocate p))
    (h' : r'.Faithful (n.relocate q)) :
    List.Forall₂ Symbol.Alike
      ((n.relocate p).routes.filterMap fun x => if keep x.1 then r.resolve? x.2 else none)
      ((n.relocate q).routes.filterMap fun x => if keep x.1 then r'.resolve? x.2 else none) := by
  simp only [Node.routes_relocate, List.filterMap_map]
  refine List.rel_filterMap (R := fun x y => x = y ∧ x ∈ n.routes) ?_
    (List.forall₂_same.mpr fun x hx => ⟨rfl, hx⟩)
  rintro x _ ⟨rfl, hx⟩
  have ha : x.2 ∈ n.topAtoms := List.mem_map_of_mem hx
  obtain ⟨s, t, hs, ht, hst⟩ := h.resolve_alike hpq h' ha
  by_cases hkeep : keep x.1
  · simp only [Function.comp_apply, hkeep, if_true, hs, ht]
    exact .some hst
  · simp only [Function.comp_apply, hkeep, if_false]
    exact .none

theorem SymbolRegistry.Faithful.defines_alike (hpq : p.components = q.components)
    (h : r.Faithful (n.relocate p)) (h' : r'.Faithful (n.relocate q)) :
    List.Forall₂ Symbol.Alike (r.collect (n.relocate p)).defines
      (r'.collect (n.relocate q)).defines := by
  rw [collect_eq_routes, collect_eq_routes]
  exact h.resolved_alike Route.IsDefinition hpq h'

theorem SymbolRegistry.Faithful.dependsOn_alike (hpq : p.components = q.components)
    (h : r.Faithful (n.relocate p)) (h' : r'.Faithful (n.relocate q)) :
    List.Forall₂ Symbol.Alike (r.collect (n.relocate p)).dependsOn
      (r'.collect (n.relocate q)).dependsOn := by
  have hconsumed := h.resolved_alike (fun x => ¬ x.IsDefinition) hpq h'
  rw [collect_eq_routes, collect_eq_routes]
  simpa only [consumedAt, ite_not] using hconsumed

/-- Bare statements of one kind and identity are alike when their occurrences are. -/
theorem Statement.bare_alike (kind : StatementKind) (identity : String)
    {defines dependsOn defines' dependsOn' : List Symbol} (hkind : kind ≠ .constraint)
    (hdefines : List.Forall₂ Symbol.Alike defines defines')
    (hdependsOn : List.Forall₂ Symbol.Alike dependsOn dependsOn') (l : Location)
    (hpq : p.components = q.components) :
    (bare kind identity defines dependsOn (l.moveTo p) none).Alike
      (bare kind identity defines' dependsOn' (l.moveTo q) none) where
  kind := rfl
  identity _ := ⟨rfl, rfl⟩
  numbered h := absurd h hkind
  defines := hdefines
  dependsOn := hdependsOn
  comments := rfl
  heading := rfl
  location := l.moveTo_beq_moveTo hpq
  sourceFile := Path.beq_iff.mpr hpq
  source := rfl

namespace Classification

/-- Rules with like occurrences are classified alike, whatever the next constraint is numbered. -/
theorem ofRule_alike (i j : Nat) {defines dependsOn defines' dependsOn' : List Symbol}
    (hdefines : List.Forall₂ Symbol.Alike defines defines')
    (hdependsOn : List.Forall₂ Symbol.Alike dependsOn dependsOn') (l : Location)
    (hpq : p.components = q.components) :
    (ofRule i ⟨defines, dependsOn⟩ (l.moveTo p)).Alike
      (ofRule j ⟨defines', dependsOn'⟩ (l.moveTo q)) := by
  have hlocation := l.moveTo_beq_moveTo hpq
  cases hdefines with
  | nil =>
    cases hdependsOn with
    | nil => exact .unclassifiable hlocation
    | cons hfirst hrest =>
      refine .statement ⟨rfl, ?_, ?_, .nil, .cons hfirst hrest, rfl, rfl, hlocation, ?_, rfl⟩
      · intro hkind
        exact absurd rfl hkind
      · intro _
        exact ⟨i, j, rfl, rfl, rfl, rfl⟩
      · exact Path.beq_iff.mpr hpq
  | cons hfirst hrest =>
    have hsignature := hfirst.signature
    cases hdependsOn with
    | nil =>
      simp only [ofRule, hsignature]
      exact .statement (Statement.bare_alike _ _ (by decide) (.cons hfirst hrest) .nil l hpq)
    | cons hnext hmore =>
      simp only [ofRule, hsignature]
      exact .statement (Statement.bare_alike _ _ (by decide) (.cons hfirst hrest)
        (.cons hnext hmore) l hpq)

theorem shownSignature?_relocate (file : Path) (n : Node) :
    shownSignature? (n.relocate file) = shownSignature? n := by
  simp only [shownSignature?, Node.kind_relocate, Node.name_relocate, Node.arity_relocate,
    Node.node?_relocate, Option.map_map]
  split
  · rfl
  · congr 1
    funext term
    simp [Node.render_relocate]
  · rfl

/-- A node is classified alike in every file and under every registry that is faithful to it. -/
theorem ofNode_alike (i j : Nat) (hpq : p.components = q.components)
    (h : r.Faithful (n.relocate p)) (h' : r'.Faithful (n.relocate q)) :
    (ofNode r i (n.relocate p)).Alike (ofNode r' j (n.relocate q)) := by
  have hdefines := h.defines_alike hpq h'
  have hdependsOn := h.dependsOn_alike hpq h'
  have hdeclared (kind : StatementKind) (identity : String) (hkind : kind ≠ .constraint) :=
    Statement.bare_alike kind identity hkind hdefines hdependsOn n.location hpq
  simp only [ofNode, Node.kind_relocate, Node.location_relocate, Node.name_relocate,
    Node.arity_relocate, shownSignature?_relocate]
  cases n.kind with
  | rule => exact ofRule_alike i j hdefines hdependsOn n.location hpq
  | defined => exact .statement (hdeclared _ _ (by decide))
  | definition => exact .statement (hdeclared _ _ (by decide))
  | showSignature | showTerm =>
    cases shownSignature? n with
    | none => exact .ignored
    | some signature => exact .statement (hdeclared _ _ (by decide))
  | _ => exact .ignored

end Classification

end Moved

/-- Like statements stay alike when they are annotated from the same text. -/
theorem Statement.Alike.annotate {s t : Statement} (h : s.Alike t) {p q : Path}
    (hpq : p.components = q.components) (e : DirectiveExtractor) (sectionDirective : String)
    (lines : List String) (commentMarker : String) :
    (Annotator.annotate (.new (e.extract lines p) sectionDirective lines commentMarker) s).Alike
      (Annotator.annotate (.new (e.extract lines q) sectionDirective lines commentMarker) t) := by
  obtain ⟨-, hbegin, hstop⟩ := Location.beq_iff.mp h.location
  have hheading : ∀ line, (Annotator.new (e.extract lines p) sectionDirective lines
      commentMarker).headingFor line == (Annotator.new (e.extract lines q) sectionDirective lines
      commentMarker).headingFor line := by
    intro line
    rw [e.extract_moveTo p p, e.extract_moveTo p q, Annotator.headingFor_moveTo,
      Annotator.headingFor_moveTo]
    cases (Annotator.new (e.extract lines p) sectionDirective lines
      commentMarker).headingFor line with
    | none => rfl
    | some d => exact d.moveTo_beq_moveTo hpq
  have hline : s.location.line = t.location.line := by rw [Location.line, hbegin, Location.line]
  refine { h with comments := ?_, heading := ?_ }
  · simp only [Annotator.annotate, Annotator.commentsFor, hline, hstop]
    rfl
  · simp only [Annotator.annotate, hline]
    exact hheading t.location.line

end AspAtlas
