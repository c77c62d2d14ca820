import AspAtlas.Proofs.Surface.Gathering
/-!
Where the nodes of a lowered tree lie: each one inside its parent, and those under one field one
behind the other. Lowering gives some nodes a span of their own, of a joined chain or of a negated
weight, and drops parentheses; what a construct spans still holds all that it is lowered to.
-/
namespace AspAtlas

/-- A tree is nested in a file when each of its nodes stands in the file and is not empty, and holds
what it has under each field, one behind the other. -/
inductive Node.Nested (file : Path) : Node → Prop
  | node {n : Node} (hfile : n.location.file = file) (hproper : n.location.begin < n.location.stop)
      (hholds : ∀ f, ∀ m ∈ n.items f, n.location.Holds m.location)
      (hordered : ∀ f, (n.items f).Pairwise fun a b => a.location.Before b.location)
      (hbelow : ∀ f, ∀ m ∈ n.items f, m.Nested file) : n.Nested file

/-- A nested tree holds every node that a walk over it meets, and each of them is nested. -/
theorem Node.Nested.of_mem_visit {file : Path} {n m : Node} (h : n.Nested file)
    {enter : Node → Bool}
    (hm : m ∈ n.visit enter) : m.Nested file ∧ n.location.Holds m.location := by
  induction h with
  | @node n hfile hproper hholds hordered hbelow ih =>
    rw [visit_eq_items] at hm
    rcases List.mem_cons.mp hm with rfl | hm
    · exact ⟨.node hfile hproper hholds hordered hbelow, .refl _⟩
    · split at hm
      · obtain ⟨f, -, hm⟩ := List.mem_flatMap.mp hm
        obtain ⟨child, hchild, hm⟩ := List.mem_flatMap.mp hm
        obtain ⟨hnested, hinside⟩ := ih f child hchild hm
        exact ⟨hnested, (hholds f child hchild).trans hinside⟩
      · cases hm

namespace Surface

open Node

/-- The span of a node. -/
def nodeSpan (n : Node) : Span := ⟨n.location.begin, n.location.stop⟩

/-- A nested tree of a file lies between two positions. -/
def Placed (file : Path) (lo hi : Position) (n : Node) : Prop :=
  Within lo hi (nodeSpan n) ∧ n.Nested file

theorem placed_spanned (file : Path) : Spanned (Placed file) nodeSpan := .of_and

/-- A node has a span of a file that is not empty, and its fields hold rows of nested trees. -/
structure Laid (file : Path) (span : Span) (n : Node) : Prop where
  location : n.location = ⟨file, span.begin, span.stop⟩
  proper : span.begin < span.stop
  rows : ∀ f, Row (Placed file) span.begin span.stop (n.items f)

variable {file : Path} {lo hi mid lo' hi' : Position} {span : Span} {n m : Node} {ns : List Node}

theorem Placed.location (h : Placed file lo hi n) :
    n.location = ⟨file, (nodeSpan n).begin, (nodeSpan n).stop⟩ := by
  cases h.2 with
  | node hfile => rw [← hfile]; rfl

/-- What a row has in the middle lies anywhere around it. -/
theorem Row.around (h : Row (Placed file) lo hi ns) (hlo : lo' ≤ lo) (hhi : hi ≤ hi') :
    Row (Placed file) lo' hi' ns :=
  h.mono (placed_spanned file) hlo hhi

namespace Laid

theorem nested (h : Laid file span n) : n.Nested file := by
  obtain ⟨hlocation, hproper, hrows⟩ := h
  refine .node (by rw [hlocation]) (by rw [hlocation]; exact hproper) ?_ ?_ ?_
  · intro f m hm
    have hwithin := (placed_spanned file).within ((hrows f).of_mem (placed_spanned file) hm)
    rw [hlocation]
    exact ⟨hwithin.left, hwithin.right⟩
  · intro f
    exact (hrows f).pairwise_apart (placed_spanned file)
  · intro f m hm
    exact ((hrows f).of_mem (placed_spanned file) hm).2

/-- A node without children is laid out where it stands. -/
theorem leaf (hlocation : n.location = ⟨file, span.begin, span.stop⟩)
    (hproper : span.begin < span.stop) (hfields : n.fields = []) : Laid file span n := by
  refine ⟨hlocation, hproper, fun f => ?_⟩
  have hnone : n.items f = [] := by simp [items, hfields, Children.items, Children.get?]
  rw [hnone]
  exact .nil hproper.le

/-- How a node is laid out is a matter of its location and its fields. -/
theorem congr (h : Laid file span n) (hlocation : m.location = n.location)
    (hfields : m.fields = n.fields) : Laid file span m := by
  refine ⟨hlocation.trans h.location, h.proper, fun f => ?_⟩
  have hitems : m.items f = n.items f := by rw [items, items, hfields]
  rw [hitems]
  exact h.rows f

theorem withSequence (h : Laid file span n) (f : Field)
    (hns : Row (Placed file) span.begin span.stop ns) : Laid file span (n.withSequence f ns) := by
  refine ⟨h.location, h.proper, fun g => ?_⟩
  rw [items_withSequence]
  split
  · exact hns
  · exact h.rows g

theorem withNode (h : Laid file span n) (f : Field) (hm : Placed file span.begin span.stop m) :
    Laid file span (n.withNode f m) := by
  refine ⟨h.location, h.proper, fun g => ?_⟩
  rw [items_withNode]
  split
  · exact .singleton hm
  · exact h.rows g

theorem withNode? {m : Option Node} (h : Laid file span n) (f : Field)
    (hm : Row (Placed file) span.begin span.stop m.toList) : Laid file span (n.withNode? f m) := by
  cases m with
  | none => exact h
  | some m => exact h.withNode f (hm.of_mem (placed_spanned file) (List.mem_singleton_self m))

end Laid

/-- A node is placed where its span lies. -/
theorem Within.placed (h : Within lo hi span) (hn : Laid file span n) : Placed file lo hi n := by
  refine ⟨?_, hn.nested⟩
  simp only [nodeSpan, hn.location]
  exact h

theorem Within.own (h : Within lo hi span) : Within span.begin span.stop span :=
  ⟨le_refl _, h.proper, le_refl _⟩

theorem Within.laid_node (h : Within lo hi span) (kind : NodeKind) :
    Laid file span (span.node file kind) := .leaf rfl h.proper rfl

theorem Within.laid_named (h : Within lo hi span) (kind : NodeKind) (name : String) :
    Laid file span (named file span kind name) := .leaf rfl h.proper rfl

theorem placed_applied {arguments : List Node × List Node} (h : Within lo hi span) (name : String)
    (hfirst : Row (Placed file) span.begin span.stop arguments.1)
    (hothers : Row (Placed file) span.begin span.stop arguments.2) :
    Placed file lo hi (applied file span name arguments) :=
  h.placed (((h.laid_named .function name).withSequence .arguments hfirst).withSequence
    .pool hothers)

/-- Two terms joined span from the begin of the left one to the end of the right one. -/
theorem placed_joinTerms {left right : Node} (operator : Punct) (hleft : Placed file lo mid left)
    (hright : Placed file mid hi right) :
    Placed file lo hi (joinTerms file left operator right) := by
  have hl := (placed_spanned file).within hleft
  have hr := (placed_spanned file).within hright
  have hapart : left.location.stop ≤ right.location.begin := hl.right.trans hr.left
  have hproper : left.location.begin < right.location.stop :=
    (hl.proper.trans_le hapart).trans hr.proper
  have hjoined : Within lo hi ⟨left.location.begin, right.location.stop⟩ :=
    ⟨hl.left, hproper, hr.right⟩
  have hbegin : Placed file left.location.begin right.location.stop left :=
    ⟨⟨le_refl _, hl.proper, hapart.trans hr.proper.le⟩, hleft.2⟩
  have hstop : Placed file left.location.begin right.location.stop right :=
    ⟨⟨hl.proper.le.trans hapart, hr.proper, le_refl _⟩, hright.2⟩
  by_cases hdots : operator = .dots
  · simp only [joinTerms, hdots, if_true]
    exact hjoined.placed (((Laid.leaf rfl hproper rfl).withNode .left hbegin).withNode .right hstop)
  · simp only [joinTerms, hdots, if_false]
    exact hjoined.placed (((Laid.leaf rfl hproper rfl).withNode .left hbegin).withNode .right hstop)

/-- A term under an operator has what the operator spans. -/
theorem placed_unary {argument : Node} (operator : String) (h : Within lo hi span)
    (hargument : Placed file span.begin span.stop argument) :
    Placed file lo hi (unary ⟨file, span.begin, span.stop⟩ operator argument) :=
  h.placed ((Laid.leaf rfl h.proper rfl).withNode .argument hargument)

theorem placed_tupled {arguments : List Node × List Node} (h : Within lo hi span)
    (hfirst : Row (Placed file) span.begin span.stop arguments.1)
    (hothers : Row (Placed file) span.begin span.stop arguments.2) :
    Placed file lo hi (tupled file span arguments) := by
  unfold tupled
  split
  · -- the parentheses go, and the term between them stays
    have helement := hfirst.of_mem (placed_spanned file) (List.mem_singleton_self _)
    exact (placed_spanned file).mono helement h.left h.right
  · exact placed_applied h "" hfirst hothers

/-- What lies somewhere lies in its own span. -/
theorem Spanned.own {α : Type} {P : Position → Position → α → Prop} {span : α → Span} {a : α}
    (hP : Spanned P span) (h : P lo hi a) : P (span a).begin (span a).stop a :=
  hP.move h ⟨le_refl _, (hP.within h).proper, le_refl _⟩

mutual

/-- The tree of a term is placed where the term lies. -/
theorem Term.placed : (t : Term) → {lo hi : Position} → t.In lo hi →
    Placed file lo hi (t.lower file)
  | .chain _ first rest, _, _, h => by
    obtain ⟨hwithin, mid, hfirst, hrest⟩ := h
    rw [Term.lower]
    have hchain := placed_lowerChain rest (first.placed hfirst) hrest
    exact (placed_spanned file).mono hchain hwithin.left hwithin.right

theorem placed_lowerChain :
    (rest : List (Punct × Factor)) → {left : Node} → {lo mid hi : Position} →
      Placed file lo mid left → operandsIn mid hi rest →
        Placed file lo hi (lowerChain file left rest)
  | [], _, _, _, _, hleft, hrest => by
    rw [lowerChain]
    exact (placed_spanned file).mono hleft (le_refl _) hrest
  | (operator, operand) :: rest, _, _, _, _, hleft, hrest => by
    obtain ⟨stop, hoperand, hrest⟩ := hrest
    rw [lowerChain]
    exact placed_lowerChain rest (placed_joinTerms operator hleft (operand.placed hoperand)) hrest

theorem Factor.placed : (f : Factor) → {lo hi : Position} → f.In lo hi →
    Placed file lo hi (f.lower file)
  | .negation _ inner, _, _, h => by
    rw [Factor.lower]
    exact placed_unary "-" h.1 (inner.placed h.2)
  | .tuple _ none, _, _, h => by
    have hspan := (h : Within _ _ _).proper.le
    rw [Factor.lower]
    exact placed_tupled h (.nil hspan) (.nil hspan)
  | .tuple _ (some pool), _, _, h => by
    obtain ⟨hfirst, hothers⟩ := pool.rows h.2
    rw [Factor.lower]
    exact placed_tupled h.1 hfirst hothers
  | .absolute _ inner, _, _, h => by
    rw [Factor.lower]
    exact placed_unary "|" h.1 (inner.placed h.2)
  | .function _ name none, _, _, h => by
    rw [Factor.lower]
    exact Within.placed h (Within.laid_named h _ name)
  | .function _ name (some pool), _, _, h => by
    obtain ⟨hfirst, hothers⟩ := pool.rows h.2
    rw [Factor.lower]
    exact placed_applied h.1 name hfirst hothers
  | .var _ name, _, _, h => by
    rw [Factor.lower]
    exact Within.placed h (Within.laid_named h _ name)
  | .constant _ text, _, _, h => by
    rw [Factor.lower]
    exact Within.placed h (Within.laid_named h _ text)

/-- The first argument list of a pool is a row, and so are the nodes of its alternatives. -/
theorem Pool.rows : (pool : Pool) → {lo hi : Position} → pool.In lo hi →
    Row (Placed file) lo hi (pool.lower file).1 ∧ Row (Placed file) lo hi (pool.lower file).2
  | .alternatives first others, _, _, h => by
    obtain ⟨mid, hfirst, hothers⟩ := h
    have hrow := row_lowerAlternatives others hothers
    have hstart := (Terms.spanned.lt hfirst).le
    rw [Pool.lower]
    exact ⟨(first.row hfirst).mono (placed_spanned file) (le_refl _)
      (hrow.le (placed_spanned file)), hrow.mono (placed_spanned file) hstart (le_refl _)⟩

theorem row_lowerAlternatives :
    (others : List Terms) → {lo hi : Position} → alternativesIn lo hi others →
      Row (Placed file) lo hi (lowerAlternatives file others)
  | [], _, _, h => by
    rw [lowerAlternatives]
    exact .nil h
  | terms :: rest, _, _, h => by
    obtain ⟨mid, hterms, hrest⟩ := h
    have hwithin := Terms.spanned.within hterms
    have hnode := (hwithin.laid_named .function "").withSequence .arguments
      (terms.row (Terms.spanned.own hterms))
    rw [lowerAlternatives]
    exact .cons (hwithin.placed hnode) (row_lowerAlternatives rest hrest)

theorem Terms.row : (ts : Terms) → {lo hi : Position} → ts.In lo hi →
    Row (Placed file) lo hi (ts.lower file)
  | .list _ first rest, _, _, h => by
    obtain ⟨hwithin, mid, hfirst, hrest⟩ := h
    rw [Terms.lower]
    have hrow := Row.cons (first.placed hfirst) (row_lowerTerms rest hrest)
    exact hrow.mono (placed_spanned file) hwithin.left hwithin.right

theorem row_lowerTerms : (rest : List Term) → {lo hi : Position} → termsIn lo hi rest →
    Row (Placed file) lo hi (lowerTerms file rest)
  | [], _, _, h => by
    rw [lowerTerms]
    exact .nil h
  | term :: rest, _, _, h => by
    obtain ⟨mid, hterm, hrest⟩ := h
    rw [lowerTerms]
    exact .cons (term.placed hterm) (row_lowerTerms rest hrest)

end

/-- A row of constructs is lowered to a row when each construct is
lowered to what is placed there. -/
theorem Row.placed {α : Type} {P : Position → Position → α → Prop} {g : α → Node} {as : List α}
    (hP : ∀ {lo hi a}, P lo hi a → Placed file lo hi (g a)) (h : Row P lo hi as) :
    Row (Placed file) lo hi (as.map g) := by
  induction h with
  | nil h => exact .nil h
  | cons ha _ ih => exact .cons (hP ha) ih

theorem Row.placed_option {α : Type} {P : Position → Position → α → Prop} {g : α → Node}
    {a : Option α}
    (hP : ∀ {lo hi a}, P lo hi a → Placed file lo hi (g a)) (h : Row P lo hi a.toList) :
    Row (Placed file) lo hi (a.map g).toList := by
  rw [Option.toList_map]
  exact h.placed hP

theorem placed_guard {term : Node} (operator : Option String) (h : Within lo hi span)
    (hterm : Placed file span.begin span.stop term) :
    Placed file lo hi ({ (span.node file .guard) with operator }.withNode .term term) := by
  have hnode : Laid file span { (span.node file .guard) with operator } :=
    (h.laid_node .guard).congr rfl rfl
  exact h.placed (hnode.withNode .term hterm)

theorem placed_literal {atom : Node} (sign : Sign) (h : Within lo hi span)
    (hatom : Placed file span.begin span.stop atom) :
    Placed file lo hi ({ (span.node file .literal) with sign }.withNode .atom atom) := by
  have hnode : Laid file span { (span.node file .literal) with sign } :=
    (h.laid_node .literal).congr rfl rfl
  exact h.placed (hnode.withNode .atom hatom)

theorem Atom.placed {a : Atom} (h : a.In lo hi) : Placed file lo hi (a.lower file) := by
  obtain ⟨hwithin, hpool⟩ := h
  have hspan := hwithin.proper.le
  have hfunction : Placed file a.span.begin a.span.stop
      (applied file a.span a.name ((a.pool.map (Pool.lower file)).getD ([], []))) := by
    have hown := hwithin.own
    cases hcase : a.pool with
    | none => exact placed_applied hown a.name (.nil hspan) (.nil hspan)
    | some pool =>
      obtain ⟨hfirst, hothers⟩ := pool.rows (hpool pool hcase)
      exact placed_applied hown a.name hfirst hothers
  have hnode := (hwithin.laid_node .symbolicAtom).withNode .symbol hfunction
  cases hnegated : a.negated with
  | false =>
    simp only [Atom.lower, hnegated, Bool.false_eq_true, if_false]
    exact hwithin.placed hnode
  | true =>
    simp only [Atom.lower, hnegated, if_true]
    exact hwithin.placed (hnode.congr rfl rfl)

theorem Assertion.placed {a : Assertion} (h : a.In lo hi) : Placed file lo hi (a.lower file) := by
  cases a with
  | boolean span value => exact Within.placed h (Within.laid_named h _ value.name)
  | comparison span left operator right =>
    obtain ⟨hwithin, mid, hleft, hright⟩ := h
    have hterm : Placed file _ _ (left.lower file) := left.placed hleft
    have hlast : Placed file _ _ (right.lower file) := right.placed (Term.spanned.own hright)
    have hguard := placed_guard (some operator.text) (Term.spanned.within hright) hlast
    have hnode := ((hwithin.laid_node .comparison).withNode .term
      ((placed_spanned file).mono hterm (le_refl _)
        (Term.spanned.lt hright).le)).withSequence .guards
        (.singleton ((placed_spanned file).mono hguard (Term.spanned.lt hleft).le (le_refl _)))
    exact hwithin.placed hnode
  | symbolic atom => exact Atom.placed h

theorem Literal.placed {l : Literal} (h : l.In lo hi) : Placed file lo hi (l.lower file) :=
  placed_literal l.negations.sign h.1 (Assertion.placed h.2)

theorem row_lowerCondition {condition : List Literal} (h : Row Literal.In lo hi condition) :
    Row (Placed file) lo hi (lowerCondition file condition) :=
  h.placed Literal.placed

theorem Conditional.placed {c : Conditional} (h : c.In lo hi) :
    Placed file lo hi (c.lower file) := by
  obtain ⟨hwithin, mid, hliteral, hcondition⟩ := h
  have hstart := (Literal.spanned.lt hliteral).le
  have hend := hcondition.le Literal.spanned
  have hnode := ((hwithin.laid_node .conditionalLiteral).withNode .literal
    ((placed_spanned file).mono (Literal.placed hliteral) (le_refl _) hend)).withSequence .condition
      ((row_lowerCondition hcondition).around hstart (le_refl _))
  exact hwithin.placed hnode

theorem Conditional.placed_plain {c : Conditional} (h : c.In lo hi) :
    Placed file lo hi (c.lowerPlain file) := by
  unfold Conditional.lowerPlain
  split
  · obtain ⟨hwithin, mid, hliteral, hcondition⟩ := h
    have hend := (hcondition.le Literal.spanned).trans hwithin.right
    exact (placed_spanned file).mono (Literal.placed hliteral) hwithin.left hend
  · exact Conditional.placed h

theorem Bound.placed {b : Bound} (h : b.In lo hi) : Placed file lo hi (b.lower file) :=
  placed_guard _ h.1 (b.term.placed h.2)

theorem AggregateElement.placed {e : AggregateElement} (h : e.In lo hi) :
    Placed file lo hi (e.lower file) := by
  obtain ⟨hwithin, mid, hterms, hcondition⟩ := h
  have hstart := hterms.le Terms.spanned
  have hend := hcondition.le Literal.spanned
  have hrow : Row (Placed file) e.span.begin mid ((e.terms.map (Terms.lower file)).getD []) := by
    cases hcase : e.terms with
    | none => exact .nil hstart
    | some terms =>
      rw [hcase] at hterms
      cases hterms with
      | cons hin hnil => exact (terms.row hin).around (le_refl _) (hnil.le Terms.spanned)
  have hnode := ((hwithin.laid_node .bodyAggregateElement).withSequence .terms
    (hrow.around (le_refl _) hend)).withSequence .condition
      ((row_lowerCondition hcondition).around hstart (le_refl _))
  exact hwithin.placed hnode

/-- Elements between two bounds are laid out in the span that holds them. -/
theorem Laid.bounded {α : Type} {P : Position → Position → α → Prop} {spanOf : α → Span}
    {g : α → Node}
    {left right : Option Bound} {elements : List α} {m₁ m₂ : Position} (hn : Laid file span n)
    (hspanned : Spanned P spanOf) (hP : ∀ {lo hi a}, P lo hi a → Placed file lo hi (g a))
    (hleft : Row Bound.In span.begin m₁ left.toList) (helements : Row P m₁ m₂ elements)
    (hright : Row Bound.In m₂ span.stop right.toList) :
    Laid file span (((n.withNode? .leftGuard (left.map (Bound.lower file))).withSequence .elements
      (elements.map g)).withNode? .rightGuard (right.map (Bound.lower file))) := by
  have hstart := hleft.le Bound.spanned
  have hmiddle := helements.le hspanned
  have hend := hright.le Bound.spanned
  have hfirst : Row (Placed file) _ _ (left.map (Bound.lower file)).toList :=
    hleft.placed_option (P := Bound.In) Bound.placed
  have hinside := Row.placed (P := P) (g := g) hP helements
  have hlast : Row (Placed file) _ _ (right.map (Bound.lower file)).toList :=
    hright.placed_option (P := Bound.In) Bound.placed
  have hguarded := hn.withNode? .leftGuard (hfirst.around (le_refl _) (hmiddle.trans hend))
  have hfilled := hguarded.withSequence .elements (hinside.around hstart hend)
  exact hfilled.withNode? .rightGuard (hlast.around (hstart.trans hmiddle) (le_refl _))

theorem Aggregate.placed {a : Aggregate} (h : a.In lo hi) : Placed file lo hi (a.lower file) := by
  obtain ⟨hwithin, m₁, m₂, hleft, helements, hright⟩ := h
  have hnode : Laid file a.span { (a.span.node file .bodyAggregate) with
      operator := some a.function.name } :=
    (hwithin.laid_node .bodyAggregate).congr rfl rfl
  have hfilled := hnode.bounded AggregateElement.spanned AggregateElement.placed hleft
    helements hright
  exact placed_literal a.negations.sign hwithin (hwithin.own.placed hfilled)

theorem Choice.placed {c : Choice} (h : c.In lo hi) : Placed file lo hi (c.lower file) := by
  obtain ⟨hwithin, m₁, m₂, hleft, helements, hright⟩ := h
  have hnode : Laid file c.span (c.span.node file .aggregate) := hwithin.laid_node .aggregate
  exact hwithin.placed (hnode.bounded Conditional.spanned Conditional.placed hleft helements hright)

theorem BodyElement.placed {b : BodyElement} (h : b.In lo hi) :
    Placed file lo hi (b.lower file) := by
  cases b with
  | conditional element => exact Conditional.placed_plain h
  | aggregate element => exact Aggregate.placed h

theorem row_lowerBody {body : List BodyElement} (h : Row BodyElement.In lo hi body) :
    Row (Placed file) lo hi (lowerBody file body) :=
  h.placed BodyElement.placed

theorem Head.placed {head : Head} (h : head.In lo hi) : Placed file lo hi (head.lower file) := by
  cases head with
  | choice c => exact Choice.placed h
  | disjunction span first rest =>
    obtain ⟨hwithin, hrow⟩ := h
    by_cases hplain : (rest.isEmpty && first.condition.isEmpty) = true
    · simp only [Head.lower, hplain, if_true]
      cases hrow with
      | cons hfirst hrest =>
        obtain ⟨hinner, mid, hliteral, hcondition⟩ := hfirst
        have hend := (hcondition.le Literal.spanned).trans
          (hinner.right.trans ((hrest.le Conditional.spanned).trans hwithin.right))
        exact (placed_spanned file).mono (Literal.placed hliteral)
          (hwithin.left.trans hinner.left) hend
    · simp only [Head.lower, hplain, Bool.false_eq_true, if_false]
      have hmembers : Row (Placed file) _ _ _ :=
        hrow.placed (P := Conditional.In) Conditional.placed
      exact hwithin.placed ((hwithin.laid_node .disjunction).withSequence .elements hmembers)

theorem Weight.placed {w : Weight} (h : w.In lo hi) : Placed file lo hi (w.weight.lower file) := by
  obtain ⟨hwithin, m₁, m₂, hin, hpriority, hterms⟩ := h
  have hend := (hpriority.le Term.spanned).trans ((hterms.le Term.spanned).trans hwithin.right)
  exact (placed_spanned file).mono (w.weight.placed hin) hwithin.left hend

/-- A minimised weight holds its weight, its priority, its tuple and its condition. -/
theorem placed_minimized {weight : Node} {spec : Weight} {body : List Node} (h : Within lo hi span)
    (hweight : Placed file span.begin span.stop weight) (hspec : spec.In span.begin span.stop)
    (hbody : Row (Placed file) span.begin span.stop body) :
    Placed file lo hi (minimized file span weight spec body) := by
  obtain ⟨hinner, m₁, m₂, hin, hpriority, hterms⟩ := hspec
  have hstart := hinner.left.trans (Term.spanned.lt hin).le
  have hmiddle := hpriority.le Term.spanned
  have hend := (hterms.le Term.spanned).trans hinner.right
  have hfirst : Row (Placed file) span.begin span.stop
      (spec.priority.map (Term.lower file)).toList :=
    (hpriority.placed_option (fun ht => Term.placed _ ht)).around hstart hend
  have hothers : Row (Placed file) span.begin span.stop (spec.terms.map (Term.lower file)) :=
    (hterms.placed (fun ht => Term.placed _ ht)).around (hstart.trans hmiddle) hinner.right
  have hnode := ((h.laid_node .minimize).withNode .weight hweight).withNode? .priority hfirst
  exact h.placed ((hnode.withSequence .terms hothers).withSequence .body hbody)

theorem OptimizeElement.placed (maximize : Bool) {e : OptimizeElement} (h : e.In lo hi) :
    Placed file lo hi (e.lower file maximize) := by
  obtain ⟨hwithin, mid, hspec, hcondition⟩ := h
  have hend := hcondition.le Literal.spanned
  have hstart := (Weight.spanned.lt hspec).le
  have hwhole : e.weight.In e.span.begin e.span.stop := Weight.spanned.mono hspec (le_refl _) hend
  have hbody : Row (Placed file) e.span.begin e.span.stop (lowerCondition file e.condition) :=
    (row_lowerCondition hcondition).around hstart (le_refl _)
  have hweight : Placed file e.span.begin e.span.stop (e.weight.weight.lower file) :=
    Weight.placed hwhole
  cases maximize with
  | false => exact placed_minimized hwithin hweight hwhole hbody
  | true =>
    -- the negation of the weight stands where the weight does
    have hnegated : Placed file e.span.begin e.span.stop
        (unary (e.weight.weight.lower file).location "-" (e.weight.weight.lower file)) := by
      rw [hweight.location]
      exact placed_unary "-" hweight.1 ((placed_spanned file).own hweight)
    exact placed_minimized hwithin hnegated hwhole hbody

/-- A statement that is one node is a row of that node. -/
theorem Within.row_statement (h : Within lo hi span) (hn : Laid file span n) :
    Row (Placed file) span.begin span.stop (statementsOf [.statement n]) :=
  .singleton (h.own.placed hn)

theorem Within.row_lowerSignature {kind : NodeKind} {name digits : String} {items : List Item}
    (h : Within lo hi span)
    (hlower : (lowerSignature file span kind name digits).map (fun n => [Item.statement n]) =
      .ok items) :
    Row (Placed file) span.begin span.stop (statementsOf items) := by
  simp only [lowerSignature] at hlower
  split at hlower
  · cases hlower
    exact h.row_statement ((h.laid_named kind name).congr rfl rfl)
  · cases hlower

/-- The nodes of a statement are nested trees in its span, one behind the other. -/
theorem Statement.row {s : Statement} {items : List Item} (hlower : s.lower file = .ok items)
    (h : s.In lo hi) : Row (Placed file) s.span.begin s.span.stop (statementsOf items) := by
  obtain ⟨hwithin, hin⟩ := h
  cases s with
  | includes span target =>
    cases hlower
    exact .nil hwithin.proper.le
  | constant span name value =>
    cases hlower
    exact hwithin.row_statement
      ((hwithin.laid_named .definition name).withNode .value (value.placed hin))
  | defined span name digits => exact hwithin.row_lowerSignature hlower
  | showAll span =>
    cases hlower
    exact hwithin.row_statement ((hwithin.laid_named .showSignature "").congr rfl rfl)
  | showSignature span name digits => exact hwithin.row_lowerSignature hlower
  | showTerm span term body =>
    cases hlower
    obtain ⟨mid, hterm, hbody⟩ := hin
    have hstart := (Term.spanned.lt hterm).le
    have hend := hbody.le BodyElement.spanned
    exact hwithin.row_statement (((hwithin.laid_node .showTerm).withNode .term
      (term.placed (Term.spanned.mono hterm (le_refl _) hend))).withSequence .body
        ((row_lowerBody hbody).around hstart (le_refl _)))
  | program span name =>
    cases hlower
    exact hwithin.row_statement (hwithin.laid_named .program name)
  | external span atom condition type =>
    cases hlower
    obtain ⟨m₁, m₂, hatom, hcondition, htype⟩ := hin
    have hstart := (Atom.spanned.lt hatom).le
    have hmiddle := hcondition.le Literal.spanned
    have hend := htype.le Term.spanned
    have hnode := ((hwithin.laid_node .external : Laid file _ _).withNode .atom
      (Atom.placed (Atom.spanned.mono hatom (le_refl _) (hmiddle.trans hend)))).withSequence .body
        ((row_lowerCondition hcondition).around hstart hend)
    exact hwithin.row_statement (hnode.congr rfl rfl)
  | optimize span maximize elements =>
    cases hlower
    have hnodes : statementsOf (elements.map fun e => .statement (e.lower file maximize)) =
        elements.map fun e => e.lower file maximize := by
      simp [statementsOf, List.filterMap_map]
    rw [hnodes]
    exact Row.placed (P := OptimizeElement.In) (OptimizeElement.placed maximize) hin
  | weak span body weight =>
    cases hlower
    obtain ⟨mid, hbody, hweight⟩ := hin
    have hstart := hbody.le BodyElement.spanned
    have hend := (Weight.spanned.lt hweight).le
    have hwhole : weight.In span.begin span.stop := Weight.spanned.mono hweight hstart (le_refl _)
    have hterm : Placed file span.begin span.stop (weight.weight.lower file) := Weight.placed hwhole
    exact .singleton (placed_minimized hwithin.own hterm hwhole
      ((row_lowerBody hbody).around (le_refl _) hend))
  | rule span head body =>
    cases hlower
    obtain ⟨mid, hhead, hbody⟩ := hin
    have hstart := hhead.le Head.spanned
    have hend := hbody.le BodyElement.spanned
    have hrow : Row (Placed file) _ _ _ := (row_lowerBody hbody).around hstart (le_refl _)
    cases head with
    | none =>
      -- the head that a constraint gets has the span of the constraint
      have hfalse : Placed file span.begin span.stop (named file span .booleanConstant "false") :=
        hwithin.own.placed (hwithin.laid_named .booleanConstant "false")
      exact hwithin.row_statement
        (((hwithin.laid_node .rule).withNode .head hfalse).withSequence .body hrow)
    | some head =>
      have hin := hhead.of_mem Head.spanned (List.mem_singleton_self head)
      have hplaced : Placed file _ _ (head.lower file) :=
        Head.placed (Head.spanned.mono hin (le_refl _) hend)
      exact hwithin.row_statement
        (((hwithin.laid_node .rule).withNode .head hplaced).withSequence .body hrow)

/-- The nodes of a program are nested trees, one behind the other over all its statements. -/
theorem row_of_lowerProgram {statements : List Statement} {items : List Item}
    (hlower : lowerProgram file statements = .ok items) (h : Row Statement.In lo hi statements) :
    Row (Placed file) lo hi (statementsOf items) := by
  induction h generalizing items with
  | nil h =>
    cases hlower
    exact .nil h
  | @cons lo mid hi s rest hs _ ih =>
    obtain ⟨first, more, hfirst, hmore, rfl⟩ := lowerProgram_cons_eq_ok hlower
    have hwithin := hs.1
    have hrow := (Statement.row hfirst hs).around hwithin.left hwithin.right
    rw [statementsOf_append]
    exact hrow.append (placed_spanned file) (ih hmore)

end Surface

/-- The top-level nodes of a file are nested trees, one behind the other. -/
theorem row_of_parseItems {p : Path} {text : String} {items : List Surface.Item}
    (h : parseItems p text = .ok items) :
    ∃ lo hi, Surface.Row (Surface.Placed p) lo hi (statementsOf items) := by
  obtain ⟨statements, hparse, hlower⟩ := lowerProgram_of_parseItems h
  obtain ⟨lo, hi, hrow⟩ := Surface.parse?_row hparse
  exact ⟨lo, hi, Surface.row_of_lowerProgram hlower hrow⟩

end AspAtlas
