import AspAtlas.Proofs.Program.Headings
import AspAtlas.Proofs.Surface.RereadingRules
/-!
Rendered rules as program text. The text of a rule is that of a rule with the same signatures, as
long as no part of it is written other than it is read.
-/
namespace AspAtlas

namespace Node

/-- The text of a rule from those of its head and body. -/
def ruleText (n : Node) : String :=
  n.textOf .head ++ (if (n.sequence .body).isEmpty then ""
    else " :- " ++ "; ".intercalate (n.textsOf .body)) ++ "."

/-- Nodes that are read as they are written. The operator of a bound is written in front of its
term, also on the left; a minus sign behind the colon of a condition is refused; and a constant
`not` in front of an operator is taken for a negation. -/
structure PrintsBack (m : Node) : Prop where
  left : m.items .leftGuard = []
  condition : ∀ l ∈ (m.items .condition).head?, l.render.toList.head? ≠ some '-'
  comparison : m.kind = .literal → m.sign ≠ .doubleNegation →
    ∀ c ∈ m.items .atom, c.kind = .comparison → ¬ Surface.StartsWithBareNot (c.textOf .term).toList

instance (m : Node) : Decidable m.PrintsBack :=
  decidable_of_iff _ ⟨fun h => ⟨h.1, h.2.1, h.2.2⟩,
    fun h => And.intro h.left (And.intro h.condition h.comparison)⟩

/-- All nodes of a tree are read as they are written. -/
def PrintsThroughout (n : Node) : Prop := ∀ m ∈ n.visit fun _ => true, m.PrintsBack

instance (n : Node) : Decidable n.PrintsThroughout :=
  inferInstanceAs (Decidable (∀ m ∈ n.visit _, m.PrintsBack))

theorem PrintsThroughout.root {n : Node} (h : n.PrintsThroughout) : n.PrintsBack := by
  refine h n ?_
  rw [visit_eq]
  exact List.mem_cons_self

theorem PrintsThroughout.child {n m : Node} {f : Field} (h : n.PrintsThroughout)
    (hm : m ∈ n.items f) (hf : f ∈ n.kind.childFields) : m.PrintsThroughout := by
  intro k hk
  refine h k ?_
  rw [visit_eq_items, if_pos rfl]
  exact List.mem_cons_of_mem n (List.mem_flatMap.mpr ⟨f, hf, List.mem_flatMap.mpr ⟨m, hm, hk⟩⟩)

end Node

namespace Surface

open Node

variable {file : Path}

section Prints

theorem Negations.eq_twice_of_sign {sign : Negations} (h : sign.sign = .doubleNegation) :
    sign = .twice := by
  cases sign with
  | twice => rfl
  | none | once => cases h

theorem Literal.prints {l : Literal} (h : l.Proper) (hl : (l.lower file).PrintsBack) :
    l.Prints file := by
  intro hloses
  cases ha : l.assertion with
  | boolean span value =>
    rw [ha] at hloses
    exact hloses.elim
  | comparison span left s right =>
    rw [ha] at hloses
    by_contra htwice
    have hleft : ((l.assertion.lower file).textOf .term) = (left.lower file).render := by
      rw [ha, textOf, Assertion.lower, node?_withSequence, if_neg (by simp), node?_withNode]
      rfl
    refine hl.comparison rfl (fun hsign => htwice (Negations.eq_twice_of_sign hsign))
      (l.assertion.lower file) (by simp [Literal.lower]) (by rw [ha]; rfl) ?_
    rw [hleft]
    exact hloses
  | symbolic atom =>
    rw [ha] at hloses
    exact h.notName atom ha hloses.1 hloses.2

theorem prints_condition {condition : List Literal} (hproper : ∀ l ∈ condition, l.Proper) {n : Node}
    (hitems : n.items .condition = lowerCondition file condition)
    (hfield : .condition ∈ n.kind.childFields)
    (hn : n.PrintsThroughout) : PrintsCondition file condition := by
  refine ⟨fun l hl => Literal.prints (hproper l hl) (hn.child (f := .condition) ?_ hfield).root,
    fun l hl => ?_⟩
  · rw [hitems]
    exact List.mem_map_of_mem hl
  · refine hn.root.condition _ ?_
    rw [hitems, lowerCondition, List.head?_map]
    exact Option.mem_map_of_mem _ hl

theorem Conditional.prints {c : Conditional} (h : c.Proper) (hc : (c.lower file).PrintsThroughout) :
    c.Prints file where
  literal := Literal.prints h.literal
    (hc.child (f := .literal) (by simp [Conditional.lower]) (of_decide_eq_true rfl)).root
  condition := prints_condition h.condition (by simp [Conditional.lower]) (of_decide_eq_true rfl) hc

/-- A literal without condition. -/
theorem Conditional.prints_of_literal {c : Conditional} (h : c.Proper) (hempty : c.condition = [])
    (hl : (c.literal.lower file).PrintsThroughout) : c.Prints file :=
  ⟨Literal.prints h.literal hl.root, by simp [hempty], by simp [hempty]⟩

theorem Conditional.prints_plain {c : Conditional} (h : c.Proper)
    (hc : (c.lowerPlain file).PrintsThroughout) : c.Prints file := by
  rw [Conditional.lowerPlain] at hc
  split at hc
  · exact Conditional.prints_of_literal h (List.isEmpty_iff.mp ‹_›) hc
  · exact Conditional.prints h hc

theorem left_guarded {m : Node} {left right : Option Bound} {elements : List Node}
    (hm : m.fields = []) (h : (guarded file m left elements right).PrintsBack) : left = none := by
  have hleft := h.left
  rw [items_guarded hm] at hleft
  simpa using hleft

theorem element_guarded {m e : Node} {left right : Option Bound} {elements : List Node}
    (hm : m.fields = []) (haggregate : m.kind = .aggregate ∨ m.kind = .bodyAggregate)
    (h : (guarded file m left elements right).PrintsThroughout) (he : e ∈ elements) :
    e.PrintsThroughout := by
  refine h.child (f := .elements) ?_ ?_
  · rw [items_guarded hm]
    simpa using he
  · rw [kind_guarded]
    rcases haggregate with h | h <;> rw [h] <;> decide

theorem Choice.prints {c : Choice} (h : c.Proper) (hc : (c.lower file).PrintsThroughout) :
    c.Prints file := by
  rw [Choice.lower_eq] at hc
  exact ⟨left_guarded rfl hc.root, fun e he =>
    Conditional.prints (h.elements e he)
      (element_guarded rfl (.inl rfl) hc (List.mem_map_of_mem he))⟩

theorem Aggregate.prints {a : Aggregate} (h : a.Proper) (ha : (a.lower file).PrintsThroughout) :
    a.Prints file := by
  rw [Aggregate.lower_eq] at ha
  have hguarded : (a.lowerGuarded file).PrintsThroughout :=
    ha.child (f := .atom) (by simp) (of_decide_eq_true rfl)
  refine ⟨left_guarded rfl hguarded.root, fun e he => ?_⟩
  exact prints_condition (h.elements e he).condition (by simp [AggregateElement.lower])
    (of_decide_eq_true rfl) (element_guarded rfl (.inr rfl) hguarded (List.mem_map_of_mem he))

theorem BodyElement.prints {e : BodyElement} (h : e.Proper) (he : (e.lower file).PrintsThroughout) :
    e.Prints file := by
  cases e with
  | conditional c => exact Conditional.prints_plain h he
  | aggregate a => exact Aggregate.prints h he

theorem Head.prints {h : Head} (hproper : h.Proper) (hh : (h.lower file).PrintsThroughout) :
    h.Prints file := by
  cases h with
  | choice c => exact Choice.prints hproper hh
  | disjunction span first rest =>
    intro e he
    have heproper : e.Proper := List.forall_mem_cons.mpr hproper e he
    rw [Head.lower] at hh
    split at hh
    · rename_i halone
      obtain ⟨hrest, hcondition⟩ := Bool.and_eq_true_iff.mp halone
      rw [List.isEmpty_iff.mp hrest, List.mem_singleton] at he
      subst he
      exact Conditional.prints_of_literal heproper (List.isEmpty_iff.mp hcondition) hh
    · refine Conditional.prints heproper (hh.child (f := .elements) ?_ (of_decide_eq_true rfl))
      rw [items_withSequence, if_pos rfl]
      exact List.mem_map_of_mem he

end Prints

section Rules

/-- The statement that a rule was lowered from. -/
theorem exists_rule_of_lower {s : Statement} {group : List Item} {n : Node}
    (h : s.lower file = .ok group) (hn : .statement n ∈ group) (hkind : n.kind = .rule) :
    ∃ span head elements, s = .rule span head elements ∧ n = lowerRule file span head elements := by
  obtain ⟨hsame, -⟩ := node_of_lower h hn
  rw [hkind] at hsame
  cases s with
  | rule span head elements =>
    rw [lower_rule] at h
    cases h
    cases List.mem_singleton.mp hn
    exact ⟨span, head, elements, rfl, rfl⟩
  | _ => cases hsame

theorem ruleText_lowerRule {span : Span} {h : Option Head} {elements : List BodyElement} :
    (lowerRule file span h elements).ruleText = (lowerHead file span h).render ++
      bodyText file elements ++ "." := by
  have hempty : (lowerBody file elements).isEmpty = elements.isEmpty := List.isEmpty_map
  rw [ruleText, textOf, textsOf, lowerRule, node?_withSequence, if_neg (by simp), node?_withNode,
    sequence_withSequence, if_pos rfl, hempty, bodyText, lowerBody, List.map_map]
  rfl

end Rules

end Surface

open Node SymbolRegistry

/-- Rules are rendered as rules of the same signatures: the text of a rule of which every part is
read as it is written is accepted as one rule, in which every faithful registry finds the signatures
that are defined and depended on in the rendered one, one by one. -/
theorem ruleText_signatures {file : Path} {text : String} {items : List Surface.Item} {n : Node}
    (h : parseItems file text = .ok items) (hn : .statement n ∈ items) (hkind : n.kind = .rule)
    (hprints : n.PrintsThroughout) (other : Path) :
    ∃ rule, parseItems other n.ruleText = .ok [.statement rule] ∧ rule.kind = .rule ∧
      ∀ r r' : SymbolRegistry, r.Faithful n → r'.Faithful rule →
        (r'.collect rule).defines.map Symbol.signature =
          (r.collect n).defines.map Symbol.signature ∧
        (r'.collect rule).dependsOn.map Symbol.signature =
          (r.collect n).dependsOn.map Symbol.signature := by
  obtain ⟨statements, hparse, s, hs, group, hlower, hmem⟩ :=
    Surface.exists_statement_of_parseItems h hn
  obtain ⟨span, head, elements, rfl, rfl⟩ := Surface.exists_rule_of_lower hlower hmem hkind
  have hproper : (Surface.Statement.rule span head elements).Proper :=
    Surface.proper_of_parse? hparse _ hs
  have hhead (x : Surface.Head) (hx : x ∈ head) : x.Prints file := by
    obtain rfl : head = some x := hx
    refine Surface.Head.prints (hproper.1 x rfl)
      (hprints.child (f := .head) ?_ (of_decide_eq_true rfl))
    simp [Surface.lowerRule, Surface.lowerHead]
  have hbody (e : Surface.BodyElement) (he : e ∈ elements) : e.Prints file := by
    refine Surface.BodyElement.prints (hproper.2 e he)
      (hprints.child (f := .body) ?_ (of_decide_eq_true rfl))
    simpa [Surface.lowerRule, Surface.lowerBody] using List.mem_map_of_mem he
  obtain ⟨span', head', elements', hread, hsame⟩ := Surface.exists_rule hproper hhead hbody other
  refine ⟨_, Surface.parseItems_of_singleton
    (Surface.ruleText_lowerRule ▸ hread) Surface.lower_rule, rfl,
    fun r r' hr hr' => signature_collect hr' hr hsame⟩

/-- A program finds the predicates of its text as they are written. -/
theorem Program.Built.faithful {config : AnalysisConfig} {fs : FileSystem} {root : Path}
    {text : String} {p : Program}
    {items : List Surface.Item} {n : Node} (h : Built config fs root text p)
    (hparse : parseItems root text = .ok items)
    (hn : .statement n ∈ items) : p.symbols.Faithful n := by
  obtain ⟨source, hsource, hp⟩ := h.exists_source
  obtain ⟨_, content, found, numbered, -, hholds, -, hfound, hnodes, hdocuments⟩ :=
    documents_of_readText hsource hp h.root_mem_sources
  have hcontent : content = text := hholds.unique (.root rfl)
  have hsame : parseItems root text = .ok found := hcontent ▸ hfound
  rw [hparse, Except.ok.injEq] at hsame
  have hmem : n ∈ numbered.map Prod.snd := by
    rw [hnodes, ← hsame]
    exact mem_statementsOf.mpr hn
  obtain ⟨x, hx, rfl⟩ := List.mem_map.mp hmem
  exact hdocuments.faithful x hx

/-- A rule with elements of all kinds. -/
def chosen : String :=
  "{ b(X) : c, not d; -e } 2 :- not not f((X)), 3 < X+1, " ++
    "not #sum { X, Y : g, -h; 1 } > 3, i : (1) > X."

/-- The text of that rule. -/
def chosenText : String :=
  "{ b(X): c, not d; -e }<=2 :- not not f(X); 3<X+1; not #sum{ X,Y: g, -h; 1 }>3; i: 1>X."

theorem ruleText_signatures_of_chosen :
    ∃ p p' items n rule, Program.Built {} (.ofFiles []) ⟨"a.lp"⟩ chosen p ∧
      parseItems ⟨"a.lp"⟩ chosen = .ok items ∧ .statement n ∈ items ∧ n.kind = .rule ∧
      n.PrintsThroughout ∧ n.ruleText = chosenText ∧
      Program.Built {} (.ofFiles []) ⟨"b.lp"⟩ chosenText p' ∧
      parseItems ⟨"b.lp"⟩ chosenText = .ok [.statement rule] ∧ rule.kind = .rule ∧
      (p'.symbols.collect rule).defines.map Symbol.signature =
        (p.symbols.collect n).defines.map Symbol.signature ∧
      (p'.symbols.collect rule).dependsOn.map Symbol.signature =
        (p.symbols.collect n).dependsOn.map Symbol.signature := by
  have hread : (parseItems ⟨"a.lp"⟩ chosen).toOption.map
      (fun items => (statementsOf items).any fun n =>
      n.kind == .rule && decide n.PrintsThroughout && n.ruleText == chosenText) = some true := by
    decide +kernel
  obtain ⟨items, hparse, hany⟩ := exists_ok_of_toOption hread
  obtain ⟨n, hn, hchecks⟩ := List.any_eq_true.mp hany
  obtain ⟨hchecks, htext⟩ := Bool.and_eq_true_iff.mp hchecks
  obtain ⟨hkind, hprints⟩ := Bool.and_eq_true_iff.mp hchecks
  have hn := mem_statementsOf.mp hn
  have hkind := eq_of_beq hkind
  have hprints := of_decide_eq_true hprints
  have htext := eq_of_beq htext
  obtain ⟨p, hbuilt, -⟩ :=
    Program.exists_built_of_map {} (.ofFiles []) ⟨"a.lp"⟩ chosen (fun _ => ()) (a := ())
      (by decide +kernel)
  obtain ⟨p', hbuilt', -⟩ :=
    Program.exists_built_of_map {} (.ofFiles []) ⟨"b.lp"⟩ chosenText (fun _ => ()) (a := ())
      (by decide +kernel)
  obtain ⟨rule, hrule, hrulekind, hsame⟩ := ruleText_signatures hparse hn hkind hprints ⟨"b.lp"⟩
  rw [htext] at hrule
  have hsignatures := hsame p.symbols p'.symbols (hbuilt.faithful hparse hn)
    (hbuilt'.faithful hrule (List.mem_singleton.mpr rfl))
  exact ⟨p, p', items, n, rule, hbuilt, hparse, hn, hkind, hprints, htext, hbuilt', hrule,
    hrulekind, hsignatures⟩

/-- A rule of a text whose own text is refused. -/
def RefusesText (text printed : String) : Prop :=
  ∃ items n, parseItems ⟨"a.lp"⟩ text = .ok items ∧ .statement n ∈ items ∧ n.kind = .rule ∧
    n.ruleText = printed ∧ ∀ other found, parseItems other printed ≠ .ok found

theorem refusesText_of {text printed : String} (hrefused : (Surface.parse? printed).isNone = true)
    (hread : (parseItems ⟨"a.lp"⟩ text).toOption.map (fun items => (statementsOf items).any fun n =>
      n.kind == .rule && n.ruleText == printed) = some true) : RefusesText text printed := by
  obtain ⟨items, hparse, hany⟩ := exists_ok_of_toOption hread
  obtain ⟨n, hn, hchecks⟩ := List.any_eq_true.mp hany
  obtain ⟨hkind, htext⟩ := Bool.and_eq_true_iff.mp hchecks
  refine ⟨items, n, hparse, mem_statementsOf.mp hn, eq_of_beq hkind, eq_of_beq htext,
    fun other found h => ?_⟩
  obtain ⟨statements, hstatements, -⟩ := lowerProgram_of_parseItems h
  rw [hstatements] at hrefused
  cases hrefused

/-- A bound on the left, a minus sign in front of a condition, and a constant
that is taken for a negation. -/
theorem refused_ruleTexts :
    RefusesText "1 { a } 2." "<=1{ a }<=2." ∧ RefusesText "a :- b : (-1) < 2." "a :- b: -1<2." ∧
      RefusesText "a :- (not) = 1." "a :- not=1." :=
  ⟨refusesText_of (by decide +kernel) (by decide +kernel),
    refusesText_of (by decide +kernel) (by decide +kernel),
    refusesText_of (by decide +kernel) (by decide +kernel)⟩

end AspAtlas
