import AspAtlas.Proofs.Surface.Relocation
import AspAtlas.Proofs.Surface.StatementReading
/-!
What a walk gathers from lowered trees. Where it finds things in terms and atoms, one behind the
other, it finds them so in whole statements; only the weight of a weak constraint is walked before
the body that stands in front of it.
-/
namespace AspAtlas

namespace Node

@[simp] theorem kind_withNode (n m : Node) (f : Field) : (n.withNode f m).kind = n.kind := rfl

@[simp] theorem kind_withSequence (n : Node) (f : Field) (ms : List Node) :
    (n.withSequence f ms).kind = n.kind := rfl

@[simp] theorem kind_withNode? (n : Node) (f : Field) (m : Option Node) :
    (n.withNode? f m).kind = n.kind := by
  cases m <;> rfl

@[simp] theorem node?_withNode (n m : Node) (f : Field) : (n.withNode f m).node? f = some m := by
  simp [node?, withNode, withChild, Children.node?, Children.get?_put]

@[simp] theorem items_leaf (kind : NodeKind) (location : Location) (name : Option String)
    (arity : Option Nat) (operator : Option String) (sign : Sign) (f : Field) :
    (Node.mk kind location name arity operator sign []).items f = [] := rfl

end Node

namespace Surface

open Node

@[simp] theorem kind_node (file : Path) (span : Span) (kind : NodeKind) :
    (span.node file kind).kind = kind := rfl

@[simp] theorem items_node (file : Path) (span : Span) (kind : NodeKind) (f : Field) :
    (span.node file kind).items f = [] := rfl

theorem Atom.kind_lower {file : Path} (a : Atom) : (a.lower file).kind = .symbolicAtom := by
  cases h : a.negated <;> simp [Atom.lower, h]

theorem Atom.items_lower {file : Path} (a : Atom) (f : Field) : (a.lower file).items f =
    if Field.symbol = f then
      [applied file a.span a.name ((a.pool.map (Pool.lower file)).getD ([], []))] else [] := by
  cases h : a.negated with
  | false => simp [Atom.lower, h]
  | true =>
    simp only [Atom.lower, h, if_true]
    exact items_withNode _ _ _ _

section Rows

variable {α β : Type} {P : Position → Position → α → Prop} {Q : Position → Position → β → Prop}
  {spanOf : α → Span} {span : β → Span} {lo mid hi : Position}

theorem Row.append {xs ys : List β} (hQ : Spanned Q span) (hx : Row Q lo mid xs)
    (hy : Row Q mid hi ys) : Row Q lo hi (xs ++ ys) := by
  induction hx with
  | nil h => exact hy.mono hQ h (le_refl _)
  | cons ha _ ih => exact .cons ha (ih hy)

/-- A row of constructs with a row in each is a row of all that they have. -/
theorem Row.flatMap {g : α → List β} {xs : List α} (hQ : Spanned Q span)
    (hP : ∀ {lo hi a}, P lo hi a → Row Q lo hi (g a)) (h : Row P lo hi xs) :
    Row Q lo hi (xs.flatMap g) := by
  induction h with
  | nil h => exact .nil h
  | cons ha _ ih => exact (hP ha).append hQ ih

/-- A row of constructs with a row in the span of each is a row of all that they have. -/
theorem Row.flatMap_own {g : α → List β} {xs : List α} (hP : Spanned P spanOf) (hQ : Spanned Q span)
    (h : Row P lo hi xs) (hown : ∀ a ∈ xs, Row Q (spanOf a).begin (spanOf a).stop (g a)) :
    Row Q lo hi (xs.flatMap g) := by
  induction h with
  | nil h => exact .nil h
  | @cons lo mid hi a rest ha _ ih =>
    obtain ⟨hfirst, hrest⟩ := List.forall_mem_cons.mp hown
    have hwithin := hP.within ha
    exact (hfirst.mono hQ hwithin.left hwithin.right).append hQ (ih hrest)

end Rows

/-- From every node but atoms and variables a walk gathers what it gathers
below it, field after field. -/
structure Walks {β : Type} (gather : Node → List β) : Prop where
  below : ∀ {n : Node}, n.kind ≠ .symbolicAtom → n.kind ≠ .var →
    gather n = n.kind.childFields.flatMap fun f => (n.items f).flatMap gather

/-- What is gathered below the weight, the priority and the tuple of a node. -/
def bracketed {β : Type} (gather : Node → List β) (n : Node) : List β :=
  [.weight, .priority, .terms].flatMap fun f => (n.items f).flatMap gather

/-- What is gathered from a node lies in its span, one behind the other; in a node for a weight, the
terms of the weight may also lie behind the body. -/
def Arranged {β : Type} (file : Path) (gather : Node → List β) (P : Position → Position → β → Prop)
    (n : Node) : Prop :=
  Row P n.location.begin n.location.stop (gather n) ∨
    n.kind = .minimize ∧ ∃ mid, ∃ terms : List Term,
      bracketed gather n = (terms.flatMap fun t => gather (t.lower file)) ∧
        Row P n.location.begin mid ((n.items .body).flatMap gather) ∧
        Row P mid n.location.stop (bracketed gather n)

/-- A node with all in one row is arranged. -/
theorem Arranged.of_row {β : Type} {gather : Node → List β} {P : Position → Position → β → Prop}
    {n : Node} {file : Path} (own : Span) (hlocation : n.location = ⟨file, own.begin, own.stop⟩)
    (h : Row P own.begin own.stop (gather n)) : Arranged file gather P n := by
  left
  rw [hlocation]
  exact h

theorem location_minimized (file : Path) (own : Span) (weight : Node) (w : Weight)
    (body : List Node) :
    (minimized file own weight w body).location = ⟨file, own.begin, own.stop⟩ := by
  cases hcase : w.priority <;> simp only [minimized, hcase] <;> rfl

/-- The terms of a weight, as they are written. -/
def Weight.row (w : Weight) : List Term := w.weight :: (w.priority.toList ++ w.terms)

theorem Weight.row_in {w : Weight} {lo hi : Position} (h : w.In lo hi) :
    Row (fun lo hi t => Term.In lo hi t) lo hi w.row := by
  obtain ⟨hwithin, m₁, m₂, hweight, hpriority, hterms⟩ := h
  have hrow : Row (fun lo hi t => Term.In lo hi t) w.span.begin w.span.stop w.row :=
    .cons hweight (hpriority.append Term.spanned hterms)
  exact hrow.mono Term.spanned hwithin.left hwithin.right

theorem bracketed_minimized {β : Type} {file : Path} {gather : Node → List β} {w : Weight}
    {weight : Node} {body : List Node} {own : Span}
    (hweight : gather weight = gather (w.weight.lower file)) :
    bracketed gather (minimized file own weight w body) = w.row.flatMap
      fun t => gather (t.lower file) := by
  cases hcase : w.priority <;>
    simp [bracketed, minimized, withNode?, Weight.row, List.flatMap_map, hcase, hweight]

theorem lowerTerms_eq (file : Path) (rest : List Term) :
    lowerTerms file rest = rest.map (Term.lower file) := by
  induction rest with
  | nil => rw [lowerTerms, List.map_nil]
  | cons term rest ih => rw [lowerTerms, ih, List.map_cons]

namespace Walks

variable {β : Type} {file : Path} {gather : Node → List β} (hw : Walks gather)

include hw

theorem childless {n : Node} (hatom : n.kind ≠ .symbolicAtom) (hvar : n.kind ≠ .var)
    (h : ∀ f, n.items f = []) : gather n = [] := by
  rw [hw.below hatom hvar]
  simp [h]

theorem withName {n : Node} (hatom : n.kind ≠ .symbolicAtom) (hvar : n.kind ≠ .var)
    (name : Option String) : gather { n with name } = gather n := by
  have hrenamed : gather { n with name } = _ := hw.below (n := { n with name }) hatom hvar
  rw [hrenamed, hw.below hatom hvar]
  rfl

theorem named {span : Span} {kind : NodeKind} {name : String} (hatom : kind ≠ .symbolicAtom)
    (hvar : kind ≠ .var) : gather (Surface.named file span kind name) = [] :=
  hw.childless hatom hvar fun _ => rfl

theorem unary (location : Location) (operator : String) (argument : Node) :
    gather (Surface.unary location operator argument) = gather argument := by
  rw [hw.below (by simp [Surface.unary]) (by simp [Surface.unary])]
  simp [Surface.unary, NodeKind.childFields]

theorem applied (span : Span) (name : String) (arguments : List Node × List Node) :
    gather (Surface.applied file span name arguments) =
      arguments.1.flatMap gather ++ arguments.2.flatMap gather := by
  rw [hw.below (by simp [Surface.applied, Span.node]) (by simp [Surface.applied, Span.node])]
  simp [Surface.applied, NodeKind.childFields, Span.node]

theorem tupled (span : Span) (arguments : List Node × List Node) :
    gather (Surface.tupled file span arguments) =
      arguments.1.flatMap gather ++ arguments.2.flatMap gather := by
  unfold Surface.tupled
  split
  · simp
  · exact hw.applied span "" arguments

theorem joinTerms (left right : Node) (operator : Punct) :
    gather (Surface.joinTerms file left operator right) = gather left ++ gather right := by
  by_cases h : operator = .dots
  · rw [hw.below (by simp [Surface.joinTerms, h]) (by simp [Surface.joinTerms, h])]
    simp [Surface.joinTerms, h, NodeKind.childFields]
  · rw [hw.below (by simp [Surface.joinTerms, h]) (by simp [Surface.joinTerms, h])]
    simp [Surface.joinTerms, h, NodeKind.childFields]

/-- An alternative of a pool is a node with its arguments. -/
theorem alternative (span : Span) (arguments : List Node) :
    gather ((Surface.named file span .function "").withSequence .arguments arguments) =
      arguments.flatMap gather := by
  rw [hw.below (by simp [Surface.named]) (by simp [Surface.named])]
  simp [Surface.named, NodeKind.childFields, Span.node]

theorem guard {n : Node} {t : Term} (hkind : n.kind = .guard)
    (hterm : n.items .term = [t.lower file]) : gather n = gather (t.lower file) := by
  rw [hw.below (by simp [hkind]) (by simp [hkind])]
  simp [hkind, NodeKind.childFields, hterm]

theorem minimize {n : Node} (hkind : n.kind = .minimize) :
    gather n = bracketed gather n ++ (n.items .body).flatMap gather := by
  rw [hw.below (by simp [hkind]) (by simp [hkind])]
  simp [bracketed, hkind, NodeKind.childFields]

end Walks

/-- A walk gathers things that lie in terms and atoms, there one behind the other. -/
structure Gathers {β : Type} (file : Path) (gather : Node → List β)
    (P : Position → Position → β → Prop) (span : β → Span) : Prop where
  spanned : Spanned P span
  walks : Walks gather
  term : ∀ {t : Term} {lo hi : Position}, t.In lo hi → Row P lo hi (gather (t.lower file))
  atom : ∀ {a : Atom} {lo hi : Position}, a.In lo hi → Row P lo hi (gather (a.lower file))

namespace Gathers

variable {β : Type} {file : Path} {gather : Node → List β} {P : Position → Position → β → Prop}
  {span : β → Span} {lo hi : Position} (hg : Gathers file gather P span)

include hg

theorem terms {ts : Terms} (h : ts.In lo hi) : Row P lo hi ((ts.lower file).flatMap gather) := by
  obtain ⟨span, first, rest⟩ := ts
  obtain ⟨hwithin, mid, hfirst, hrest⟩ := h
  have hrow : Row P mid span.stop ((lowerTerms file rest).flatMap gather) := by
    rw [lowerTerms_eq, List.flatMap_map]
    exact (termsIn_iff.mp hrest).flatMap hg.spanned hg.term
  rw [Terms.lower, List.flatMap_cons]
  exact ((hg.term hfirst).append hg.spanned hrow).mono hg.spanned hwithin.left hwithin.right

theorem assertion {a : Assertion} (h : a.In lo hi) : Row P lo hi (gather (a.lower file)) := by
  have hle := (Assertion.spanned.lt h).le
  cases a with
  | boolean span value =>
    rw [Assertion.lower, hg.walks.named (by decide) (by decide)]
    exact .nil hle
  | comparison span left operator right =>
    obtain ⟨hwithin, mid, hleft, hright⟩ := h
    have hsides : gather ((Assertion.comparison span left operator right).lower file) =
        gather (left.lower file) ++ gather (right.lower file) := by
      rw [hg.walks.below (by simp [Assertion.lower]) (by simp [Assertion.lower])]
      simp only [Assertion.lower, kind_withSequence, kind_withNode, kind_node, NodeKind.childFields,
        List.flatMap_cons, List.flatMap_nil, items_withSequence, items_withNode,
          reduceCtorEq, if_true,
        if_false, List.append_nil]
      rw [List.append_cancel_left_eq]
      exact hg.walks.guard rfl (by simp)
    rw [hsides]
    exact ((hg.term hleft).append hg.spanned (hg.term hright)).mono hg.spanned hwithin.left
      hwithin.right
  | symbolic atom => exact hg.atom h

theorem literal {l : Literal} (h : l.In lo hi) : Row P lo hi (gather (l.lower file)) := by
  have hassertion : gather (l.lower file) = gather (l.assertion.lower file) := by
    rw [hg.walks.below (by simp [Literal.lower, Span.node]) (by simp [Literal.lower, Span.node])]
    simp [Literal.lower, Span.node, NodeKind.childFields]
  obtain ⟨hwithin, hin⟩ := h
  rw [hassertion]
  exact (hg.assertion hin).mono hg.spanned hwithin.left hwithin.right

theorem condition {condition : List Literal} (h : Row Literal.In lo hi condition) :
    Row P lo hi ((lowerCondition file condition).flatMap gather) := by
  rw [lowerCondition, List.flatMap_map]
  exact h.flatMap hg.spanned hg.literal

theorem conditional {c : Conditional} (h : c.In lo hi) : Row P lo hi (gather (c.lower file)) := by
  have hparts : gather (c.lower file) =
      gather (c.literal.lower file) ++ (lowerCondition file c.condition).flatMap gather := by
    rw [hg.walks.below (by simp [Conditional.lower]) (by simp [Conditional.lower])]
    simp [Conditional.lower, NodeKind.childFields]
  obtain ⟨hwithin, mid, hliteral, hcondition⟩ := h
  rw [hparts]
  apply Row.mono hg.spanned _ hwithin.left hwithin.right
  exact (hg.literal hliteral).append hg.spanned (hg.condition hcondition)

theorem conditional_plain {c : Conditional} (h : c.In lo hi) :
    Row P lo hi (gather (c.lowerPlain file)) := by
  unfold Conditional.lowerPlain
  split
  · obtain ⟨hwithin, mid, hliteral, hcondition⟩ := h
    have hend := (hcondition.le Literal.spanned).trans hwithin.right
    exact (hg.literal hliteral).mono hg.spanned hwithin.left hend
  · exact hg.conditional h

theorem bound {b : Bound} (h : b.In lo hi) : Row P lo hi (gather (b.lower file)) := by
  obtain ⟨hwithin, hin⟩ := h
  have hterm : gather (b.lower file) = gather (b.term.lower file) :=
    hg.walks.guard rfl (by simp [Bound.lower, Span.node])
  rw [hterm]
  exact (hg.term hin).mono hg.spanned hwithin.left hwithin.right

theorem bound? {b : Option Bound} (h : Row Bound.In lo hi b.toList) :
    Row P lo hi ((b.map (Bound.lower file)).toList.flatMap gather) := by
  rw [Option.toList_map, List.flatMap_map]
  exact h.flatMap hg.spanned hg.bound

theorem aggregateElement {e : AggregateElement} (h : e.In lo hi) :
    Row P lo hi (gather (e.lower file)) := by
  have hparts : gather (e.lower file) =
      (((e.terms.map (Terms.lower file)).getD []).flatMap gather) ++
        (lowerCondition file e.condition).flatMap gather := by
    rw [hg.walks.below (by simp [AggregateElement.lower]) (by simp [AggregateElement.lower])]
    simp [AggregateElement.lower, NodeKind.childFields]
  obtain ⟨hwithin, mid, hterms, hcondition⟩ := h
  have hrow : Row P e.span.begin mid
      (((e.terms.map (Terms.lower file)).getD []).flatMap gather) := by
    cases hcase : e.terms with
    | none =>
      rw [hcase] at hterms
      exact .nil (hterms.le Terms.spanned)
    | some ts =>
      rw [hcase] at hterms
      exact hg.terms (hterms.of_mem Terms.spanned (List.mem_singleton_self ts))
  rw [hparts]
  exact (hrow.append hg.spanned (hg.condition hcondition)).mono hg.spanned hwithin.left
    hwithin.right

theorem aggregate {a : Aggregate} (h : a.In lo hi) : Row P lo hi (gather (a.lower file)) := by
  have hparts : gather (a.lower file) = (a.left.map (Bound.lower file)).toList.flatMap gather ++
      (a.elements.flatMap (fun e => gather (e.lower file)) ++
        (a.right.map (Bound.lower file)).toList.flatMap gather) := by
    rw [hg.walks.below (by simp [Aggregate.lower, Span.node])
      (by simp [Aggregate.lower, Span.node])]
    simp only [Aggregate.lower, Span.node, kind_withNode, NodeKind.childFields, List.flatMap_cons,
      List.flatMap_nil, List.append_nil, items_withNode, if_true]
    rw [hg.walks.below (by simp) (by simp)]
    cases a.left <;> cases a.right <;> simp [NodeKind.childFields, withNode?, List.flatMap_map]
  obtain ⟨hwithin, m₁, m₂, hleft, helements, hright⟩ := h
  have hrow : Row P m₁ m₂ (a.elements.flatMap fun e => gather (e.lower file)) :=
    helements.flatMap hg.spanned hg.aggregateElement
  rw [hparts]
  apply Row.mono hg.spanned _ hwithin.left hwithin.right
  exact (hg.bound? hleft).append hg.spanned (hrow.append hg.spanned (hg.bound? hright))

theorem choice {c : Choice} (h : c.In lo hi) : Row P lo hi (gather (c.lower file)) := by
  have hparts : gather (c.lower file) = (c.left.map (Bound.lower file)).toList.flatMap gather ++
      (c.elements.flatMap (fun e => gather (e.lower file)) ++
        (c.right.map (Bound.lower file)).toList.flatMap gather) := by
    rw [hg.walks.below (by simp [Choice.lower]) (by simp [Choice.lower])]
    cases hleft : c.left <;> cases hright : c.right <;>
      simp [Choice.lower, NodeKind.childFields, withNode?, List.flatMap_map, hleft, hright]
  obtain ⟨hwithin, m₁, m₂, hleft, helements, hright⟩ := h
  have hrow : Row P m₁ m₂ (c.elements.flatMap fun e => gather (e.lower file)) :=
    helements.flatMap hg.spanned hg.conditional
  rw [hparts]
  apply Row.mono hg.spanned _ hwithin.left hwithin.right
  exact (hg.bound? hleft).append hg.spanned (hrow.append hg.spanned (hg.bound? hright))

theorem bodyElement {b : BodyElement} (h : b.In lo hi) : Row P lo hi (gather (b.lower file)) := by
  cases b with
  | conditional element => exact hg.conditional_plain h
  | aggregate element => exact hg.aggregate h

theorem body {body : List BodyElement} (h : Row BodyElement.In lo hi body) :
    Row P lo hi ((lowerBody file body).flatMap gather) := by
  rw [lowerBody, List.flatMap_map]
  exact h.flatMap hg.spanned hg.bodyElement

theorem head {head : Head} (h : head.In lo hi) : Row P lo hi (gather (head.lower file)) := by
  cases head with
  | choice c => exact hg.choice h
  | disjunction span first rest =>
    obtain ⟨hwithin, hrow⟩ := h
    by_cases hplain : (rest.isEmpty && first.condition.isEmpty) = true
    · simp only [Head.lower, hplain, if_true]
      cases hrow with
      | cons hfirst hrest =>
        obtain ⟨hinner, mid, hliteral, hcondition⟩ := hfirst
        have hend := (hcondition.le Literal.spanned).trans
          (hinner.right.trans ((hrest.le Conditional.spanned).trans hwithin.right))
        exact (hg.literal hliteral).mono hg.spanned (hwithin.left.trans hinner.left) hend
    · have hparts : gather ((span.node file .disjunction).withSequence .elements
          ((first :: rest).map (Conditional.lower file))) =
            (first :: rest).flatMap fun c => gather (c.lower file) := by
        rw [hg.walks.below (by simp) (by simp)]
        simp [NodeKind.childFields, List.flatMap_map]
      have hin : Row P span.begin span.stop
          ((first :: rest).flatMap fun c => gather (c.lower file)) :=
        hrow.flatMap hg.spanned hg.conditional
      simp only [Head.lower, hplain, Bool.false_eq_true, if_false]
      rw [hparts]
      exact hin.mono hg.spanned hwithin.left hwithin.right

theorem optimizeElement {e : OptimizeElement} (maximize : Bool) (h : e.In lo hi) :
    Arranged file gather P (e.lower file maximize) := by
  obtain ⟨hwithin, mid, hweight, hcondition⟩ := h
  have hterm : gather (if maximize then
      Surface.unary (e.weight.weight.lower file).location "-" (e.weight.weight.lower file)
        else e.weight.weight.lower file) = gather (e.weight.weight.lower file) := by
    split
    · exact hg.walks.unary _ _ _
    · rfl
  have hrow : Row P e.span.begin mid (e.weight.row.flatMap fun t => gather (t.lower file)) :=
    (Weight.row_in hweight).flatMap hg.spanned hg.term
  refine .of_row e.span (location_minimized _ _ _ _ _) ?_
  have hbody (weight : Node) (body : List Node) :
      (minimized file e.span weight e.weight body).items .body = body := by
    simp [minimized]
  rw [OptimizeElement.lower, hg.walks.minimize (by simp [minimized]),
    bracketed_minimized hterm, hbody]
  exact hrow.append hg.spanned (hg.condition hcondition)

theorem signature {kind : NodeKind} {name digits : String} {items : List Item} {own : Span}
    (hatom : kind ≠ .symbolicAtom) (hvar : kind ≠ .var) (h : own.begin ≤ own.stop)
    (hlower : (lowerSignature file own kind name digits).map (fun node => [Item.statement node]) =
      .ok items) :
    ∀ n ∈ statementsOf items, Arranged file gather P n := by
  simp only [lowerSignature] at hlower
  split at hlower
  · cases hlower
    intro n hn
    rw [List.mem_singleton.mp hn]
    left
    rw [hg.walks.childless hatom hvar fun f => rfl]
    exact .nil h
  · cases hlower

theorem external {own : Span} {a : Atom} {condition : List Literal} (hatom : a.In own.begin lo)
    (hcondition : Row Literal.In lo hi condition) (hle : hi ≤ own.stop) (type : Option String) :
    Arranged file gather P
      { ((own.node file .external).withNode .atom (a.lower file)).withSequence .body
      (lowerCondition file condition) with name := type } := by
  refine .of_row own rfl ?_
  have hparts : gather (((own.node file .external).withNode .atom (a.lower file)).withSequence .body
      (lowerCondition file condition)) =
        gather (a.lower file) ++ (lowerCondition file condition).flatMap gather := by
    rw [hg.walks.below (by simp) (by simp)]
    simp [NodeKind.childFields]
  rw [hg.walks.withName (by simp) (by simp), hparts]
  exact ((hg.atom hatom).append hg.spanned (hg.condition hcondition)).mono hg.spanned
    (le_refl _) hle

/-- The bracket stands behind the body, but its fields are walked first. -/
theorem weak {own : Span} {body : List BodyElement} {weight : Weight} {mid : Position}
    (hbody : Row BodyElement.In own.begin mid body) (hweight : weight.In mid own.stop) :
    Arranged file gather P
      (minimized file own (weight.weight.lower file) weight (lowerBody file body)) := by
  have hlocation := location_minimized file own (weight.weight.lower file) weight
    (lowerBody file body)
  have hrow : Row P mid own.stop (weight.row.flatMap fun t => gather (t.lower file)) :=
    (Weight.row_in hweight).flatMap hg.spanned hg.term
  refine .inr ⟨by simp [minimized], mid, weight.row, bracketed_minimized rfl, ?_, ?_⟩
  · rw [hlocation]
    simpa [minimized] using hg.body hbody
  · rw [hlocation, bracketed_minimized rfl]
    exact hrow

theorem rule {own : Span} {head : Node} {body : List BodyElement} {mid : Position}
    (hhead : Row P own.begin mid (gather head)) (hbody : Row BodyElement.In mid own.stop body) :
    Arranged file gather P
      (((own.node file .rule).withNode .head head).withSequence .body (lowerBody file body)) := by
  refine .of_row own rfl ?_
  rw [hg.walks.below (by simp) (by simp)]
  simpa [NodeKind.childFields] using hhead.append hg.spanned (hg.body hbody)

/-- What is gathered from a statement is arranged in each of its nodes. -/
theorem statement {s : Statement} {items : List Item} (hlower : s.lower file = .ok items)
    (h : s.In lo hi) : ∀ n ∈ statementsOf items, Arranged file gather P n := by
  obtain ⟨hwithin, hin⟩ := h
  have hspan := hwithin.proper.le
  -- all but optimisation statements are one node
  have one {m : Node} (hm : Arranged file gather P m) :
      ∀ n ∈ statementsOf [.statement m], Arranged file gather P n := by
    intro n hn
    rw [List.mem_singleton.mp hn]
    exact hm
  cases s with
  | includes span target =>
    cases hlower
    exact fun n hn => absurd hn List.not_mem_nil
  | constant span name value =>
    cases hlower
    have hvalue : gather ((named file span .definition name).withNode .value (value.lower file)) =
        gather (value.lower file) := by
      rw [hg.walks.below (by simp [named]) (by simp [named])]
      simp [named, Span.node, NodeKind.childFields]
    refine one (.of_row span rfl ?_)
    rw [hvalue]
    exact hg.term hin
  | defined span name digits => exact hg.signature (by decide) (by decide) hspan hlower
  | showAll span =>
    cases hlower
    refine one (.of_row span rfl ?_)
    rw [hg.walks.childless (by simp [named]) (by simp [named]) fun f => rfl]
    exact .nil hspan
  | showSignature span name digits => exact hg.signature (by decide) (by decide) hspan hlower
  | showTerm span term body =>
    cases hlower
    obtain ⟨mid, hterm, hbody⟩ := hin
    refine one (.of_row span rfl ?_)
    rw [hg.walks.below (by simp) (by simp)]
    have hrow := (hg.term hterm).append hg.spanned (hg.body hbody)
    simpa [NodeKind.childFields] using hrow
  | program span name =>
    cases hlower
    refine one (.of_row span rfl ?_)
    rw [hg.walks.named (by decide) (by decide)]
    exact .nil hspan
  | external span atom condition type =>
    cases hlower
    obtain ⟨m₁, m₂, hatom, hcondition, htype⟩ := hin
    exact one (hg.external hatom hcondition (htype.le Term.spanned) _)
  | optimize span maximize elements =>
    cases hlower
    intro n hn
    obtain ⟨e, he, rfl⟩ : ∃ e ∈ elements, e.lower file maximize = n := by
      simpa [statementsOf, List.filterMap_map] using hn
    exact hg.optimizeElement maximize (Row.of_mem OptimizeElement.spanned hin he)
  | weak span body weight =>
    cases hlower
    obtain ⟨mid, hbody, hweight⟩ := hin
    exact one (hg.weak hbody hweight)
  | rule span head body =>
    cases hlower
    obtain ⟨mid, hhead, hbody⟩ := hin
    refine one (hg.rule ?_ hbody)
    cases head with
    | none =>
      rw [hg.walks.named (by decide) (by decide)]
      exact .nil (hhead.le Head.spanned)
    | some head => exact hg.head (hhead.of_mem Head.spanned (List.mem_singleton_self head))

theorem program {statements : List Statement} {items : List Item}
    (hlower : lowerProgram file statements = .ok items) (h : Row Statement.In lo hi statements) :
    ∀ n ∈ statementsOf items, Arranged file gather P n := by
  induction h generalizing items with
  | nil h =>
    cases hlower
    exact fun n hn => absurd hn List.not_mem_nil
  | cons hs _ ih =>
    obtain ⟨first, more, hfirst, hmore, rfl⟩ := lowerProgram_cons_eq_ok hlower
    intro n hn
    rw [statementsOf_append] at hn
    rcases List.mem_append.mp hn with hn | hn
    · exact hg.statement hfirst hs n hn
    · exact ih hmore n hn

end Gathers

end Surface

/-- What is gathered from the statements of a file is arranged in each of them. -/
theorem arranged_of_parseItems {β : Type} {p : Path} {gather : Node → List β}
    {P : Position → Position → β → Prop} {span : β → Surface.Span}
    (hg : Surface.Gathers p gather P span) {text : String} {items : List Surface.Item}
    (h : parseItems p text = .ok items) :
    ∀ n ∈ statementsOf items, Surface.Arranged p gather P n := by
  obtain ⟨statements, hparse, hlower⟩ := lowerProgram_of_parseItems h
  obtain ⟨lo, hi, hrow⟩ := Surface.parse?_row hparse
  exact hg.program hlower hrow

end AspAtlas
