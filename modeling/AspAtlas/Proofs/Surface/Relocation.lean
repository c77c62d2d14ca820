import AspAtlas.Proofs.Node.Relocation
import AspAtlas.Reader.Source
/-!
The tree of a construct does not depend on the file but for its locations: moving the tree that was
made in one file gives the tree made in the other.
-/
namespace AspAtlas.Surface

variable (p q : Path)

@[simp] theorem relocate_node (span : Span) (kind : NodeKind) :
    (span.node p kind).relocate q = span.node q kind := by
  simp [Span.node]

@[simp] theorem relocate_named (span : Span) (kind : NodeKind) (name : String) :
    (named p span kind name).relocate q = named q span kind name := by
  simp [named, Span.node]

@[simp] theorem relocate_applied (span : Span) (name : String) (arguments : List Node × List Node) :
    (applied p span name arguments).relocate q =
      applied q span name (arguments.1.map (Node.relocate q),
        arguments.2.map (Node.relocate q)) := by
  simp [applied, Span.node]

@[simp] theorem relocate_joinTerms (left right : Node) (operator : Punct) :
    (joinTerms p left operator right).relocate q =
      joinTerms q (left.relocate q) operator (right.relocate q) := by
  by_cases h : operator = .dots <;> simp [joinTerms, h]

@[simp] theorem relocate_unary (location : Location) (operator : String) (argument : Node) :
    (unary location operator argument).relocate q =
      unary (location.moveTo q) operator (argument.relocate q) := by
  simp [unary]

@[simp] theorem relocate_tupled (span : Span) (arguments : List Node × List Node) :
    (tupled p span arguments).relocate q =
      tupled q span (arguments.1.map (Node.relocate q), arguments.2.map (Node.relocate q)) := by
  obtain ⟨first, others⟩ := arguments
  match first, others with
  | [], _ => simp [tupled]
  | [_], [] => simp [tupled]
  | [_], _ :: _ => simp [tupled]
  | _ :: _ :: _, _ => simp [tupled]

mutual

theorem Term.relocate_lower : (t : Term) → (t.lower p).relocate q = t.lower q
  | .chain _ first rest => by
    rw [Term.lower, Term.lower, relocate_lowerChain, first.relocate_lower]

theorem relocate_lowerChain : (left : Node) → (rest : List (Punct × Factor)) →
    (lowerChain p left rest).relocate q = lowerChain q (left.relocate q) rest
  | left, [] => by rw [lowerChain, lowerChain]
  | left, (operator, operand) :: rest => by
    rw [lowerChain, lowerChain, relocate_lowerChain, relocate_joinTerms, operand.relocate_lower]

theorem Factor.relocate_lower : (f : Factor) → (f.lower p).relocate q = f.lower q
  | .negation span inner => by simp [Factor.lower, inner.relocate_lower]
  | .tuple span none => by simp [Factor.lower]
  | .tuple span (some pool) => by simp [Factor.lower, ← pool.relocate_lower]
  | .absolute span inner => by simp [Factor.lower, inner.relocate_lower]
  | .function span name none => by simp [Factor.lower]
  | .function span name (some pool) => by simp [Factor.lower, ← pool.relocate_lower]
  | .var span name => by simp [Factor.lower]
  | .constant span text => by simp [Factor.lower]

theorem Pool.relocate_lower : (pool : Pool) →
    ((pool.lower p).1.map (Node.relocate q), (pool.lower p).2.map (Node.relocate q)) = pool.lower q
  | .alternatives first others => by
    simp [Pool.lower, first.relocate_lower, relocate_lowerAlternatives others]

theorem relocate_lowerAlternatives : (others : List Terms) →
    (lowerAlternatives p others).map (Node.relocate q) = lowerAlternatives q others
  | [] => by simp [lowerAlternatives]
  | terms :: rest => by
    simp [lowerAlternatives, terms.relocate_lower, relocate_lowerAlternatives rest]

theorem Terms.relocate_lower : (ts : Terms) → (ts.lower p).map (Node.relocate q) = ts.lower q
  | .list _ first rest => by
    simp [Terms.lower, first.relocate_lower, relocate_lowerTerms rest]

theorem relocate_lowerTerms : (rest : List Term) →
    (lowerTerms p rest).map (Node.relocate q) = lowerTerms q rest
  | [] => by simp [lowerTerms]
  | term :: rest => by simp [lowerTerms, term.relocate_lower, relocate_lowerTerms rest]

end

theorem Atom.relocate_lower (a : Atom) : (a.lower p).relocate q = a.lower q := by
  have harguments : (((a.pool.map (Pool.lower p)).getD ([], [])).1.map (Node.relocate q),
      ((a.pool.map (Pool.lower p)).getD ([], [])).2.map (Node.relocate q)) =
        (a.pool.map (Pool.lower q)).getD ([], []) := by
    cases a.pool with
    | none => rfl
    | some pool => exact pool.relocate_lower p q
  have hnode : ((a.span.node p .symbolicAtom).withNode .symbol (applied p a.span a.name
      ((a.pool.map (Pool.lower p)).getD ([], [])))).relocate q =
        (a.span.node q .symbolicAtom).withNode .symbol (applied q a.span a.name
          ((a.pool.map (Pool.lower q)).getD ([], []))) := by
    simp [harguments]
  cases h : a.negated with
  | false => simpa only [Atom.lower, h, Bool.false_eq_true, if_false] using hnode
  | true => simp only [Atom.lower, h, if_true, Node.relocate_withOperator, hnode]

theorem Assertion.relocate_lower (a : Assertion) : (a.lower p).relocate q = a.lower q := by
  cases a with
  | boolean span value => simp [Assertion.lower]
  | comparison span left operator right =>
    simp [Assertion.lower, Span.node, Term.relocate_lower]
  | symbolic atom => exact atom.relocate_lower p q

theorem Literal.relocate_lower (l : Literal) : (l.lower p).relocate q = l.lower q := by
  simp [Literal.lower, Span.node, Assertion.relocate_lower]

@[simp] theorem relocate_lowerCondition (condition : List Literal) :
    (lowerCondition p condition).map (Node.relocate q) = lowerCondition q condition := by
  simp [lowerCondition, Literal.relocate_lower]

theorem Conditional.relocate_lower (c : Conditional) : (c.lower p).relocate q = c.lower q := by
  simp [Conditional.lower, Literal.relocate_lower]

theorem Conditional.relocate_lowerPlain (c : Conditional) :
    (c.lowerPlain p).relocate q = c.lowerPlain q := by
  by_cases h : c.condition.isEmpty = true
  · simp [Conditional.lowerPlain, h, Literal.relocate_lower]
  · simp [Conditional.lowerPlain, h, Conditional.relocate_lower]

theorem Bound.relocate_lower (b : Bound) : (b.lower p).relocate q = b.lower q := by
  simp [Bound.lower, Span.node, Term.relocate_lower]

theorem AggregateElement.relocate_lower (e : AggregateElement) :
    (e.lower p).relocate q = e.lower q := by
  cases h : e.terms <;> simp [AggregateElement.lower, h, Terms.relocate_lower]

theorem Aggregate.relocate_lower (a : Aggregate) : (a.lower p).relocate q = a.lower q := by
  simp [Aggregate.lower, Span.node, Function.comp_def, Bound.relocate_lower,
    AggregateElement.relocate_lower]

theorem BodyElement.relocate_lower (b : BodyElement) : (b.lower p).relocate q = b.lower q := by
  cases b with
  | conditional element => exact element.relocate_lowerPlain p q
  | aggregate element => exact element.relocate_lower p q

@[simp] theorem relocate_lowerBody (body : List BodyElement) :
    (lowerBody p body).map (Node.relocate q) = lowerBody q body := by
  simp [lowerBody, BodyElement.relocate_lower]

theorem Choice.relocate_lower (c : Choice) : (c.lower p).relocate q = c.lower q := by
  simp [Choice.lower, Function.comp_def, Bound.relocate_lower, Conditional.relocate_lower]

theorem Head.relocate_lower (h : Head) : (h.lower p).relocate q = h.lower q := by
  cases h with
  | choice c => exact c.relocate_lower p q
  | disjunction span first rest =>
    by_cases hplain : (rest.isEmpty && first.condition.isEmpty) = true
    · simp only [Head.lower, hplain, if_true, Literal.relocate_lower]
    · simp [Head.lower, hplain, Function.comp_def, Conditional.relocate_lower]

@[simp] theorem relocate_minimized (span : Span) (weight : Node) (spec : Weight)
    (body : List Node) : (minimized p span weight spec body).relocate q =
      minimized q span (weight.relocate q) spec (body.map (Node.relocate q)) := by
  simp [minimized, Function.comp_def, Term.relocate_lower]

theorem OptimizeElement.relocate_lower (maximize : Bool) (e : OptimizeElement) :
    (e.lower p maximize).relocate q = e.lower q maximize := by
  have hweight := e.weight.weight.relocate_lower p q
  have hlocation : (e.weight.weight.lower p).location.moveTo q =
      (e.weight.weight.lower q).location := by
    rw [← hweight, Node.location_relocate]
  cases maximize <;> simp [OptimizeElement.lower, hweight, hlocation]

/-- The item in another file. -/
def Item.relocate (file : Path) : Item → Item
  | .statement n => .statement (n.relocate file)
  | .includes target location => .includes target (location.moveTo file)

/-- A rendered term says nothing of its file. -/
theorem render_relocate_lower (t : Term) : (t.lower p).render = (t.lower q).render := by
  rw [← t.relocate_lower p q, Node.render_relocate]

theorem relocate_lowerSignature (span : Span) (kind : NodeKind) (name digits : String) :
    (lowerSignature p span kind name digits).map (Node.relocate q) =
      lowerSignature q span kind name digits := by
  simp only [lowerSignature]
  split
  · simp [Except.map, named, Span.node]
  · rfl

theorem Statement.relocate_lower (s : Statement) :
    (s.lower p).map (List.map (Item.relocate q)) = s.lower q := by
  cases s with
  | includes span target => rfl
  | constant span name value =>
    simp [Statement.lower, Except.map, Item.relocate, Term.relocate_lower]
  | defined span name digits =>
    rw [Statement.lower, Statement.lower, ← relocate_lowerSignature p q]
    cases lowerSignature p span .defined name digits <;> rfl
  | showAll span => simp [Statement.lower, Except.map, Item.relocate, named, Span.node]
  | showSignature span name digits =>
    rw [Statement.lower, Statement.lower, ← relocate_lowerSignature p q]
    cases lowerSignature p span .showSignature name digits <;> rfl
  | showTerm span term body =>
    simp [Statement.lower, Except.map, Item.relocate, Term.relocate_lower]
  | program span name => simp [Statement.lower, Except.map, Item.relocate]
  | external span atom condition type =>
    simp [Statement.lower, Except.map, Item.relocate, Node.relocate_withName, Atom.relocate_lower,
      render_relocate_lower p q]
  | optimize span maximize elements =>
    simp [Statement.lower, Except.map, Item.relocate, OptimizeElement.relocate_lower]
  | weak span body weight =>
    simp [Statement.lower, Except.map, Item.relocate, Term.relocate_lower]
  | rule span head body =>
    cases head <;>
      simp [Statement.lower, Except.map, Item.relocate, Head.relocate_lower]

theorem lowerProgram_cons (s : Statement) (rest : List Statement) :
    lowerProgram p (s :: rest) =
      (s.lower p).bind fun items => (lowerProgram p rest).map fun more => items ++ more := by
  simp only [lowerProgram, List.mapM_cons]
  cases s.lower p with
  | error digits => rfl
  | ok items =>
    cases rest.mapM (Statement.lower p) <;> simp [bind, Except.bind, Except.map, pure, Except.pure]

variable {p} in
theorem lowerProgram_cons_eq_ok {s : Statement} {rest : List Statement} {items : List Item}
    (h : lowerProgram p (s :: rest) = .ok items) :
    ∃ first more, s.lower p = .ok first ∧ lowerProgram p rest = .ok more ∧
      items = first ++ more := by
  rw [lowerProgram_cons] at h
  cases hfirst : s.lower p with
  | error digits => simp [hfirst, Except.bind] at h
  | ok first =>
    cases hmore : lowerProgram p rest with
    | error digits => simp [hfirst, hmore, Except.bind, Except.map] at h
    | ok more =>
      simp only [hfirst, hmore, Except.bind, Except.map, Except.ok.injEq] at h
      exact ⟨first, more, rfl, rfl, h.symm⟩

theorem map_lowerProgram_cons {α : Type} (f : Item → α) (s : Statement) (rest : List Statement) :
    (lowerProgram p (s :: rest)).map (List.map f) = ((s.lower p).map (List.map f)).bind fun items =>
      ((lowerProgram p rest).map (List.map f)).map fun more => items ++ more := by
  rw [lowerProgram_cons]
  cases s.lower p with
  | error digits => rfl
  | ok items => cases lowerProgram p rest <;> simp [Except.bind, Except.map]

/-- A program reads as the same items in every file, or as none in any. -/
theorem relocate_lowerProgram (statements : List Statement) :
    (lowerProgram p statements).map (List.map (Item.relocate q)) = lowerProgram q statements := by
  induction statements with
  | nil => rfl
  | cons s rest ih => rw [map_lowerProgram_cons, s.relocate_lower p q, ih, lowerProgram_cons]

end AspAtlas.Surface

namespace AspAtlas

open Surface (Item)

/-- The statements among some items. -/
def statementsOf (items : List Item) : List Node :=
  items.filterMap fun
    | .statement n => some n
    | .includes _ _ => none

@[simp] theorem statementsOf_nil : statementsOf [] = [] := rfl

@[simp] theorem statementsOf_statement (n : Node) (rest : List Item) :
    statementsOf (.statement n :: rest) = n :: statementsOf rest := rfl

@[simp] theorem statementsOf_includes (target : String) (location : Location) (rest : List Item) :
    statementsOf (.includes target location :: rest) = statementsOf rest := rfl

theorem mem_statementsOf {n : Node} {items : List Item} :
    n ∈ statementsOf items ↔ .statement n ∈ items := by
  induction items with
  | nil => simp
  | cons item rest ih => cases item <;> simp [ih]

@[simp] theorem statementsOf_append (items more : List Item) :
    statementsOf (items ++ more) = statementsOf items ++ statementsOf more :=
  List.filterMap_append

/-- The statements of moved items are the moved statements. -/
theorem statementsOf_relocate (q : Path) (items : List Item) :
    statementsOf (items.map (Item.relocate q)) = (statementsOf items).map (Node.relocate q) := by
  induction items with
  | nil => rfl
  | cons item rest ih =>
    rw [List.map_cons]
    cases item with
    | statement n => simp [Item.relocate, ih]
    | includes target location => simp [Item.relocate, ih]

/-- The items of a text are those that its statements are lowered to. -/
theorem lowerProgram_of_parseItems {p : Path} {text : String} {items : List Item}
    (h : parseItems p text = .ok items) :
    ∃ statements, Surface.parse? text = some statements ∧
      Surface.lowerProgram p statements = .ok items := by
  simp only [parseItems] at h
  cases hparse : Surface.parse? text with
  | none => simp [hparse] at h
  | some statements =>
    simp only [hparse] at h
    cases hlower : Surface.lowerProgram p statements with
    | error digits => simp [hlower] at h
    | ok found =>
      simp only [hlower, Except.ok.injEq] at h
      exact ⟨statements, rfl, hlower.trans (congrArg Except.ok h)⟩

/-- The items of a file are those of the same text in another file, moved there. -/
theorem parseItems_relocate {p : Path} {text : String} {items : List Item}
    (h : parseItems p text = .ok items) (q : Path) :
    parseItems q text = .ok (items.map (Item.relocate q)) := by
  obtain ⟨statements, hparse, hlower⟩ := lowerProgram_of_parseItems h
  have hmoved := Surface.relocate_lowerProgram p q statements
  rw [hlower] at hmoved
  simp [parseItems, hparse, ← hmoved, Except.map]

/-- A text that one file does not accept is accepted by none. -/
theorem parseItems_error {p : Path} {text : String} {e : Error} (h : parseItems p text = .error e) :
    ∃ cause, e = .parse p cause := by
  simp only [parseItems] at h
  split at h
  · exact ⟨_, (Except.error.inj h).symm⟩
  · split at h
    · cases h
    · exact ⟨_, (Except.error.inj h).symm⟩

/-- Every node of a statement stands in the file that it was read from. -/
theorem file_of_mem_parseItems {p : Path} {text : String} {items : List Item}
    (h : parseItems p text = .ok items) {n m : Node} (hn : .statement n ∈ items)
    {enter : Node → Bool} (hm : m ∈ n.visit enter) : m.location.file = p := by
  have hsame := parseItems_relocate h p
  rw [h, Except.ok.injEq] at hsame
  rw [hsame] at hn
  obtain ⟨item, -, hitem⟩ := List.mem_map.mp hn
  cases item with
  | includes target location => simp [Item.relocate] at hitem
  | statement k =>
    simp only [Item.relocate, Item.statement.injEq] at hitem
    subst hitem
    exact Node.file_of_mem_visit_relocate p k enter hm

/-- What is computed of a result tells that there is one. -/
theorem exists_ok_of_toOption {ε α β : Type} {x : Except ε α} {f : α → β} {b : β}
    (h : x.toOption.map f = some b) : ∃ a, x = .ok a ∧ f a = b := by
  cases x with
  | error e => cases h
  | ok a => exact ⟨a, rfl, Option.some.inj h⟩

end AspAtlas
