import AspAtlas.Proofs.Surface.Nesting
/-!
The predicate atoms of a lowered tree: where a construct lies, there lie the atoms of its tree, one
behind the other.
-/
namespace AspAtlas

namespace Surface

open Node

variable (file : Path)

theorem walks_topAtoms : Walks topAtoms := ⟨fun hatom _ => topAtoms_of_kind hatom⟩

mutual

/-- Terms have no atoms. -/
theorem Term.topAtoms_lower : (t : Term) → (t.lower file).topAtoms = []
  | .chain _ first rest => by
    rw [Term.lower]
    exact topAtoms_lowerChain _ first.topAtoms_lower rest

theorem topAtoms_lowerChain : (left : Node) → left.topAtoms = [] → (rest : List (Punct × Factor)) →
    (lowerChain file left rest).topAtoms = []
  | left, h, [] => by
    rw [lowerChain]
    exact h
  | left, h, (operator, operand) :: rest => by
    rw [lowerChain]
    apply topAtoms_lowerChain
    rw [walks_topAtoms.joinTerms, h, operand.topAtoms_lower]
    rfl

theorem Factor.topAtoms_lower : (f : Factor) → (f.lower file).topAtoms = []
  | .negation span inner => by rw [Factor.lower, walks_topAtoms.unary, inner.topAtoms_lower]
  | .tuple span none => by
    rw [Factor.lower, walks_topAtoms.tupled]
    rfl
  | .tuple span (some pool) => by rw [Factor.lower, walks_topAtoms.tupled, pool.topAtoms_lower]
  | .absolute span inner => by rw [Factor.lower, walks_topAtoms.unary, inner.topAtoms_lower]
  | .function span name none => by rw [Factor.lower, walks_topAtoms.named (by decide) (by decide)]
  | .function span name
      (some pool) => by rw [Factor.lower, walks_topAtoms.applied, pool.topAtoms_lower]
  | .var span name => by
    rw [Factor.lower, topAtoms_of_kind (by simp [named])]
    rfl
  | .constant span text => by rw [Factor.lower, walks_topAtoms.named (by decide) (by decide)]

theorem Pool.topAtoms_lower : (pool : Pool) →
    (pool.lower file).1.flatMap topAtoms ++ (pool.lower file).2.flatMap topAtoms = []
  | .alternatives first others => by
    rw [Pool.lower, first.topAtoms_lower, topAtoms_lowerAlternatives others]
    rfl

theorem topAtoms_lowerAlternatives : (others : List Terms) →
    (lowerAlternatives file others).flatMap topAtoms = []
  | [] => by rw [lowerAlternatives, List.flatMap_nil]
  | terms :: rest => by
    rw [lowerAlternatives, List.flatMap_cons, topAtoms_lowerAlternatives rest,
      walks_topAtoms.alternative, terms.topAtoms_lower]
    rfl

theorem Terms.topAtoms_lower : (ts : Terms) → (ts.lower file).flatMap topAtoms = []
  | .list _ first rest => by
    rw [Terms.lower, List.flatMap_cons, first.topAtoms_lower, topAtoms_lowerTerms rest]
    rfl

theorem topAtoms_lowerTerms : (rest : List Term) → (lowerTerms file rest).flatMap topAtoms = []
  | [] => by rw [lowerTerms, List.flatMap_nil]
  | term :: rest => by
    rw [lowerTerms, List.flatMap_cons, term.topAtoms_lower, topAtoms_lowerTerms rest]
    rfl

end

/-- The span of the predicate occurrence at an atom. -/
def atomSpan (a : Node) : Span :=
  match Symbol.ofAtom? a with
  | some s => ⟨s.location.begin, s.location.stop⟩
  | none => default

theorem atomSpan_eq {a : Node} {s : Symbol} (h : Symbol.ofAtom? a = some s) :
    atomSpan a = ⟨s.location.begin, s.location.stop⟩ := by
  rw [atomSpan, h]

/-- A node is the tree of an atom whose predicate occurrence lies between two positions. -/
def AtomIn (lo hi : Position) (a : Node) : Prop :=
  Within lo hi (atomSpan a) ∧ ∃ file, ∃ atom : Atom, a = atom.lower file

theorem atomIn_spanned : Spanned AtomIn atomSpan := .of_and

variable {file} {lo hi : Position}

theorem Atom.node?_lower (a : Atom) : (a.lower file).node? .symbol =
    some (applied file a.span a.name ((a.pool.map (Pool.lower file)).getD ([], []))) := by
  cases h : a.negated with
  | false => simp [Atom.lower, h]
  | true =>
    simp only [Atom.lower, h, if_true]
    exact node?_withNode _ _ _

/-- The predicate of an atom counts the arguments that the atom has. -/
theorem Atom.predicate?_lower (a : Atom) :
    (a.lower file).predicate? = some (a.name, (a.lower file).predicateArguments.length) := by
  have hkind : (a.lower file).isAtom = true := by
    cases h : a.negated <;> simp [Atom.lower, h, isAtom]
  have hfunction (arguments : List Node × List Node) :
      (applied file a.span a.name arguments).kind = .function := rfl
  simp only [predicate?, predicateArguments, hkind, if_true, a.node?_lower, hfunction,
    List.length_map]
  rfl

/-- The occurrence at the atom of a predicate has its name and span. -/
theorem Atom.ofAtom?_lower (a : Atom) :
    ∃ arguments, Symbol.ofAtom? (a.lower file) =
      some (.occurrence a.name arguments ⟨file, a.span.begin, a.span.stop⟩ none) := by
  simp only [Symbol.ofAtom?, a.predicate?_lower, a.node?_lower]
  exact ⟨_, rfl⟩

/-- Below an atom there are terms only. -/
theorem Atom.topAtoms_below (a : Atom) (f : Field) :
    ∀ m ∈ (a.lower file).items f, m.topAtoms = [] := by
  intro m hm
  rw [a.items_lower] at hm
  split at hm
  · rw [List.mem_singleton.mp hm, walks_topAtoms.applied]
    cases a.pool with
    | none => rfl
    | some pool => exact pool.topAtoms_lower file
  · cases hm

theorem Atom.atoms_in {a : Atom} (h : a.In lo hi) : Row AtomIn lo hi (a.lower file).topAtoms := by
  rw [topAtoms_atom a.kind_lower]
  obtain ⟨arguments, hsymbol⟩ := @Atom.ofAtom?_lower file a
  refine .singleton ⟨?_, file, a, rfl⟩
  rw [atomSpan_eq hsymbol]
  exact h.1

/-- The atoms of trees are gathered from them; there are none in terms. -/
theorem gathers_atoms (file : Path) : Gathers file topAtoms AtomIn atomSpan where
  spanned := atomIn_spanned
  walks := walks_topAtoms
  term {t _ _} h := by
    rw [t.topAtoms_lower]
    exact .nil (Term.spanned.lt h).le
  atom := Atom.atoms_in

end Surface

/-- The atoms of a file lie one behind the other. -/
theorem atoms_of_parseItems {p : Path} {text : String} {items : List Surface.Item}
    (h : parseItems p text = .ok items) :
    ∃ lo hi, Surface.Row Surface.AtomIn lo hi ((statementsOf items).flatMap Node.topAtoms) := by
  obtain ⟨lo, hi, hnodes⟩ := row_of_parseItems h
  refine ⟨lo, hi, hnodes.flatMap_own (Surface.placed_spanned p) Surface.atomIn_spanned
    fun n hn => ?_⟩
  rcases arranged_of_parseItems (Surface.gathers_atoms p) h n hn with
    hrow | ⟨hkind, mid, terms, hterms, hbody, hweight⟩
  · exact hrow
  · -- there are no atoms in a weight, so that those of the body are all
    have hnone : Surface.bracketed Node.topAtoms n = [] := by
      rw [hterms, List.flatMap_eq_nil_iff]
      exact fun t _ => t.topAtoms_lower p
    rw [Surface.walks_topAtoms.minimize hkind, hnone, List.nil_append]
    exact hbody.mono Surface.atomIn_spanned (le_refl _) (hweight.le Surface.atomIn_spanned)

end AspAtlas
