import AspAtlas.Proofs.Surface.Arities
import AspAtlas.Proofs.Surface.ProperStatements
import AspAtlas.Proofs.Surface.TermText
/-!
The terms of statements. Wherever a statement has a term, its text is that of a term without
superfluous parentheses and blanks.
-/
namespace AspAtlas

namespace Surface

open Node

variable {file : Path}

theorem legible_map {α : Type} {lower : α → Node} {xs : List α} {P : α → Prop}
    (hlower : ∀ x, P x → (lower x).Legible) (h : ∀ x ∈ xs, P x) :
    ∀ m ∈ xs.map lower, m.Legible := by
  intro m hm
  obtain ⟨x, hx, rfl⟩ := List.mem_map.mp hm
  exact hlower x (h x hx)

theorem legible_option {α : Type} {lower : α → Node} {x : Option α} {P : α → Prop}
    (hlower : ∀ x, P x → (lower x).Legible) (h : ∀ a ∈ x, P a) : ∀ m ∈ x.map lower, m.Legible := by
  intro m hm
  obtain ⟨a, ha, rfl⟩ := Option.map_eq_some_iff.mp hm
  exact hlower a (h a ha)

theorem isEmpty_of_spelled {name : String} (h : (Lexeme.identifier name).Spelled) :
    name.isEmpty = false := by
  obtain ⟨c, ds, hchars, -⟩ := h
  cases hempty : name.isEmpty with
  | false => rfl
  | true =>
    rw [String.isEmpty_iff] at hempty
    rw [hempty] at hchars
    cases hchars

/-- The symbol of a predicate is a term. -/
theorem Atom.legible_symbol {a : Atom} (h : a.Proper) :
    (applied file a.span a.name ((a.pool.map (Pool.lower file)).getD ([], []))).LegibleTerm := by
  cases hpool : a.pool with
  | some pool => exact legible_applied h.name (Pool.legible (h.pool pool hpool))
  | none =>
    refine ⟨⟨_, (Written.name h.name).single, ?_⟩, legibleBelow_applied a.name (by simp) (by simp)⟩
    simp [render_applied, isEmpty_of_spelled h.name, Lexeme.chars]

theorem Atom.legible {a : Atom} (h : a.Proper) : (a.lower file).Legible := by
  refine legible_of_items (by simp [isTerm, a.kind_lower]) fun f m hm => ?_
  rw [a.items_lower] at hm
  split at hm
  · rw [List.mem_singleton.mp hm]
    exact (Atom.legible_symbol h).legible
  · cases hm

theorem Assertion.legible {a : Assertion} (h : a.Proper) : (a.lower file).Legible := by
  cases a with
  | boolean own value => exact legible_of_items rfl (.leaf rfl)
  | comparison own left operator right =>
    obtain ⟨hleft, -, hright⟩ := h
    have hguard : Legible (Node.withNode { (right.span.node file .guard) with
        operator := some operator.text } .term (right.lower file)) :=
      legible_of_items rfl (AllItems.withNode (.leaf rfl) _ (Term.legible hright).legible)
    refine legible_of_items rfl (AllItems.withSequence ?_ _ (by simpa using hguard))
    exact AllItems.withNode (.leaf rfl) _ (Term.legible hleft).legible
  | symbolic atom => exact Atom.legible h

theorem Literal.legible {l : Literal} (h : l.Proper) : (l.lower file).Legible :=
  legible_of_items rfl (AllItems.withNode (.leaf rfl) _ (Assertion.legible h.assertion))

theorem legible_lowerCondition {condition : List Literal} (h : ∀ l ∈ condition, l.Proper) :
    ∀ m ∈ lowerCondition file condition, m.Legible :=
  legible_map (fun _ => Literal.legible) h

theorem Conditional.legible {c : Conditional} (h : c.Proper) : (c.lower file).Legible := by
  refine legible_of_items rfl (AllItems.withSequence ?_ _ (legible_lowerCondition h.condition))
  exact AllItems.withNode (.leaf rfl) _ (Literal.legible h.literal)

theorem Conditional.legible_plain {c : Conditional} (h : c.Proper) :
    (c.lowerPlain file).Legible := by
  unfold Conditional.lowerPlain
  split
  · exact Literal.legible h.literal
  · exact Conditional.legible h

theorem Bound.legible {b : Bound} (h : b.Proper) : (b.lower file).Legible :=
  legible_of_items rfl (AllItems.withNode (.leaf rfl) _ (Term.legible h.term).legible)

theorem AggregateElement.legible {e : AggregateElement} (h : e.Proper) :
    (e.lower file).Legible := by
  have hterms : ∀ m ∈ (e.terms.map (Terms.lower file)).getD [], m.Legible := by
    cases hcase : e.terms with
    | none => simp
    | some terms => exact fun m hm => ((Terms.legible (h.terms terms hcase)).each m hm).legible
  refine legible_of_items rfl (AllItems.withSequence ?_ _ (legible_lowerCondition h.condition))
  exact AllItems.withSequence (.leaf rfl) _ hterms

theorem Aggregate.legible {a : Aggregate} (h : a.Proper) : (a.lower file).Legible := by
  refine legible_of_items rfl (AllItems.withNode (.leaf rfl) _ ?_)
  refine legible_of_items ?_
    (AllItems.withNode? (AllItems.withSequence (AllItems.withNode? (.leaf rfl) _ ?_) _ ?_) _ ?_)
  · simp [isTerm, kind_withNode?]
  · exact legible_option (fun _ => Bound.legible) h.left
  · exact legible_map (fun _ => AggregateElement.legible) h.elements
  · exact legible_option (fun _ => Bound.legible) h.right

theorem BodyElement.legible {e : BodyElement} (h : e.Proper) : (e.lower file).Legible := by
  cases e with
  | conditional element => exact Conditional.legible_plain h
  | aggregate element => exact Aggregate.legible h

theorem legible_lowerBody {body : List BodyElement} (h : ∀ e ∈ body, e.Proper) :
    ∀ m ∈ lowerBody file body, m.Legible :=
  legible_map (fun _ => BodyElement.legible) h

theorem Choice.legible {c : Choice} (h : c.Proper) : (c.lower file).Legible := by
  refine legible_of_items ?_
    (AllItems.withNode? (AllItems.withSequence (AllItems.withNode? (.leaf rfl) _ ?_) _ ?_) _ ?_)
  · simp [isTerm, Choice.lower]
  · exact legible_option (fun _ => Bound.legible) h.left
  · exact legible_map (fun _ => Conditional.legible) h.elements
  · exact legible_option (fun _ => Bound.legible) h.right

theorem Head.legible {h : Head} (hproper : h.Proper) : (h.lower file).Legible := by
  cases h with
  | choice c => exact Choice.legible hproper
  | disjunction own first rest =>
    obtain ⟨hfirst, hrest⟩ := hproper
    rw [Head.lower]
    split
    · exact Literal.legible hfirst.literal
    · refine legible_of_items rfl (AllItems.withSequence (.leaf rfl) _ ?_)
      exact legible_map (fun _ => Conditional.legible) (List.forall_mem_cons.mpr ⟨hfirst, hrest⟩)

theorem legible_minimized {own : Span} {weight : Node} {w : Weight} {body : List Node}
    (h : w.Proper)
    (hweight : weight.LegibleTerm) (hbody : ∀ m ∈ body, m.Legible) :
    (minimized file own weight w body).Legible := by
  have hterm (t : Term) (ht : t.Proper) : (t.lower file).Legible := (Term.legible ht).legible
  refine legible_of_items ?_
    (AllItems.withSequence (AllItems.withSequence (AllItems.withNode? (AllItems.withNode
    (.leaf rfl) _ hweight.legible) _ ?_) _ ?_) _ hbody)
  · simp [isTerm, minimized]
  · exact legible_option hterm h.priority
  · exact legible_map hterm h.terms

theorem OptimizeElement.legible {e : OptimizeElement} (h : e.Proper) (maximize : Bool) :
    (e.lower file maximize).Legible := by
  unfold OptimizeElement.lower
  refine legible_minimized h.weight ?_ (legible_lowerCondition h.condition)
  split
  · exact legible_negative _ (Term.legible h.weight.weight)
  · exact Term.legible h.weight.weight

theorem legible_signature {own : Span} {kind : NodeKind} {name digits : String} {items : List Item}
    (hlower : (lowerSignature file own kind name digits).map
      (fun node => [.statement node]) = .ok items)
    {node : Node} (hnode : .statement node ∈ items) : node.LegibleBelow := by
  rw [lowerSignature_eq] at hlower
  split at hlower
  · cases hlower
  · cases hlower
    simp only [List.mem_singleton, Item.statement.injEq] at hnode
    subst hnode
    exact legibleBelow_of_items fun f m hm => by cases hm

/-- A statement that is one node has its terms in it. -/
theorem legibleBelow_of_one {n node : Node} (hnode : Item.statement node ∈ [.statement n])
    (h : n.Legible) : node.LegibleBelow := by
  simp only [List.mem_singleton, Item.statement.injEq] at hnode
  subst hnode
  exact h.below

/-- Wherever a statement has a term, it is written as one. -/
theorem Statement.legible {s : Statement} (h : s.Proper) {items : List Item}
    (hlower : s.lower file = .ok items)
    {node : Node} (hnode : .statement node ∈ items) : node.LegibleBelow := by
  cases s with
  | includes own target =>
    cases hlower
    simp at hnode
  | constant own name value =>
    cases hlower
    have hvalue : (value.lower file).Legible := (Term.legible h).legible
    exact legibleBelow_of_one hnode (legible_of_items rfl (AllItems.withNode (.leaf rfl) _ hvalue))
  | defined own name digits => exact legible_signature hlower hnode
  | showAll own =>
    cases hlower
    exact legibleBelow_of_one hnode (legible_of_items rfl (.leaf rfl))
  | showSignature own name digits => exact legible_signature hlower hnode
  | showTerm own term body =>
    cases hlower
    obtain ⟨hterm, hbody⟩ := h
    refine legibleBelow_of_one hnode
      (legible_of_items rfl (AllItems.withSequence ?_ _ (legible_lowerBody hbody)))
    exact AllItems.withNode (.leaf rfl) _ (Term.legible hterm).legible
  | program own name =>
    cases hlower
    exact legibleBelow_of_one hnode (legible_of_items rfl (.leaf rfl))
  | external own atom condition type =>
    cases hlower
    obtain ⟨hatom, hcondition, -⟩ := h
    have hitems : AllItems Legible ((own.node file .external).withNode .atom (atom.lower file)
        |>.withSequence .body (lowerCondition file condition)) :=
      (AllItems.withNode (.leaf rfl) _ (Atom.legible hatom)).withSequence _
      (legible_lowerCondition hcondition)
    refine legibleBelow_of_one hnode (legible_of_items rfl ?_)
    exact hitems
  | optimize own maximize elements =>
    cases hlower
    obtain ⟨e, he, heq⟩ := List.mem_map.mp hnode
    cases heq
    exact (OptimizeElement.legible (h e he) maximize).below
  | weak own body weight =>
    cases hlower
    obtain ⟨hbody, hweight⟩ := h
    exact legibleBelow_of_one hnode
      (legible_minimized hweight (Term.legible hweight.weight) (legible_lowerBody hbody))
  | rule own head body =>
    cases hlower
    obtain ⟨hhead, hbody⟩ := h
    refine legibleBelow_of_one hnode (legible_of_items rfl (AllItems.withSequence
      (AllItems.withNode (.leaf rfl) _ ?_) _ (legible_lowerBody hbody)))
    cases head with
    | none => exact legible_of_items rfl (.leaf rfl)
    | some head => exact Head.legible (hhead head rfl)

end Surface
end AspAtlas
