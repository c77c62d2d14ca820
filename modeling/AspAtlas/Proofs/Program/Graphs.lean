import AspAtlas.Proofs.Graph.Definition
import AspAtlas.Proofs.Graph.Statement
import AspAtlas.Proofs.Program.Listing
/-!
The two graphs of a program against each other. An edge between statements is carried by a name that
the first one defines, and the definition graph leads on from that name; an edge from a defined name
comes from a statement that depends on it, and the statement graph leads there unless the statement
depends on itself.
-/
namespace AspAtlas.Program

open StatementGraph (members mem_edges_build)

/-- The statement graph and the definition graph of a program tell the same. -/
structure GraphsAgree (p : Program) : Prop where
  /-- An edge leads from a rule or fact to a rule or constraint, by way of a name that the first one
  defines and from which the definition graph leads to all that the second one stands for. -/
  carried : ∀ e ∈ p.statementGraph.edges, ∃ s t,
    (members p.allStatements)[e.source]? = some s ∧ (members p.allStatements)[e.target]? = some t ∧
    (t.kind = .rule ∨ t.kind = .constraint) ∧
    ∃ q ∈ s.defines,
      (s.kind = .rule ∧ q.signature ∈ p.definitionGraph.names .rules ∨
        s.kind = .fact ∧ q.signature ∈ p.definitionGraph.names .facts) ∧
      ∀ y, t.FlowsInto p.path y → ⟨q.signature, y⟩ ∈ p.definitionGraph.edges
  /-- An edge from a defined name leads to an output that depends on it, or to what a statement
  stands for which depends on it and to which there is an edge from a statement that defines it,
  unless it is that statement itself. -/
  traced : ∀ x y, ⟨x, y⟩ ∈ p.definitionGraph.edges →
    x ∈ p.definitionGraph.names .facts ∨ x ∈ p.definitionGraph.names .rules →
    (∃ s ∈ p.allStatements, s.kind = .output ∧ s.identity = y ∧ ∃ q ∈ s.dependsOn,
      q.signature = x) ∨
      ∃ a b s t, (members p.allStatements)[a]? = some s ∧ (members p.allStatements)[b]? = some t ∧
        (∃ q ∈ s.defines, q.signature = x) ∧ (∃ q ∈ t.dependsOn, q.signature = x) ∧
        (t.kind = .rule ∨ t.kind = .constraint) ∧ t.FlowsInto p.path y ∧
        (⟨a, b⟩ ∈ p.statementGraph.edges ∨ a = b ∧ s = t)

variable {source : ParsedSource} {config : AnalysisConfig} {p : Program}
  {decorate : Statement → Statement} {s t : Statement} {x : String}

/-- Every rule-shaped statement has a node. -/
theorem exists_member_of_mem (hs : s ∈ p.allStatements) (hkind : s.kind.isRuleShaped = true) :
    ∃ a : Nat, (members p.allStatements)[a]? = some s :=
  List.getElem?_of_mem (List.mem_filter.mpr ⟨hs, hkind⟩)

/-- A name is a fact or a rule exactly when a statement of that kind defines it. -/
theorem exists_defining
    (h : x ∈ p.definitionGraph.names .facts ∨ x ∈ p.definitionGraph.names .rules) :
    ∃ s ∈ p.allStatements, s.kind.isRuleShaped = true ∧ ∃ q ∈ s.defines, q.signature = x := by
  have hexact := DefinitionGraph.exact_build p.path p.allStatements
  rcases h with h | h
  · obtain ⟨s, hs, hadds⟩ := hexact.mem_names.mp h
    cases hadds with
    | fact hkind hq => exact ⟨s, hs, by rw [hkind]; rfl, _, hq, rfl⟩
  · obtain ⟨s, hs, hadds⟩ := hexact.mem_names.mp h
    cases hadds with
    | rule hkind hq => exact ⟨s, hs, by rw [hkind]; rfl, _, hq, rfl⟩

namespace Lists

/-- A rule-shaped statement that defines something is a rule or a fact, and the definition graph has
what it defines in the group of its kind. -/
theorem names_of_defines (h : p.Lists source decorate) (hs : s ∈ p.allStatements)
    (hshaped : s.kind.isRuleShaped = true) {q : Symbol} (hq : q ∈ s.defines) :
    s.kind = .rule ∧ q.signature ∈ p.definitionGraph.names .rules ∨
      s.kind = .fact ∧ q.signature ∈ p.definitionGraph.names .facts := by
  have hexact := DefinitionGraph.exact_build p.path p.allStatements
  cases hkind : s.kind with
  | rule => exact .inl ⟨rfl, hexact.mem_names.mpr ⟨s, hs, .rule hkind hq⟩⟩
  | fact => exact .inr ⟨rfl, hexact.mem_names.mpr ⟨s, hs, .fact hkind hq⟩⟩
  | constraint =>
    obtain ⟨hnone, -⟩ := (h.classified_of_mem hs).constraint hkind
    rw [hnone] at hq
    cases hq
  | definition | input | output =>
    rw [hkind] at hshaped
    cases hshaped

/-- A rule-shaped statement that depends on something is a rule or a constraint. -/
theorem kind_of_dependsOn (h : p.Lists source decorate) (ht : t ∈ p.allStatements)
    (hshaped : t.kind.isRuleShaped = true) {q : Symbol} (hq : q ∈ t.dependsOn) :
    t.kind = .rule ∨ t.kind = .constraint := by
  cases hkind : t.kind with
  | rule => exact .inl rfl
  | constraint => exact .inr rfl
  | fact =>
    have hnone := (h.classified_of_mem ht).fact hkind
    rw [hnone] at hq
    cases hq
  | definition | input | output =>
    rw [hkind] at hshaped
    cases hshaped

theorem graphsAgree (h : p.Lists source decorate) : p.GraphsAgree := by
  have hexact := DefinitionGraph.exact_build p.path p.allStatements
  constructor
  · intro e he
    obtain ⟨-, s, t, hs, ht, hfeeds⟩ := mem_edges_build.mp he
    obtain ⟨q, hq, r, hr, hsame⟩ := Statement.feeds_eq_true_iff.mp hfeeds
    obtain ⟨hsmem, hsshaped⟩ := List.mem_filter.mp (List.mem_of_getElem? hs)
    obtain ⟨htmem, htshaped⟩ := List.mem_filter.mp (List.mem_of_getElem? ht)
    refine ⟨s, t, hs, ht, h.kind_of_dependsOn htmem htshaped hr, q, hq,
      h.names_of_defines hsmem hsshaped hq, ?_⟩
    intro y hy
    exact (hexact.edges _ y).mpr ⟨t, htmem, ⟨r, hr, hsame.symm⟩, hy⟩
  · intro x y he hx
    obtain ⟨t, ht, ⟨r, hr, hrx⟩, hflows⟩ := (hexact.edges x y).mp he
    by_cases houtput : t.kind = .output
    · refine .inl ⟨t, ht, houtput, ?_, r, hr, hrx⟩
      cases hflows with
      | output => rfl
      | rule hkind | constraint hkind => simp [houtput] at hkind
    · have hshaped : t.kind.isRuleShaped = true := by
        cases hflows with
        | output hkind => exact absurd hkind houtput
        | rule hkind | constraint hkind => rw [hkind]; rfl
      obtain ⟨s, hs, hsshaped, q, hq, hqx⟩ := exists_defining hx
      obtain ⟨a, ha⟩ := exists_member_of_mem hs hsshaped
      obtain ⟨b, hb⟩ := exists_member_of_mem ht hshaped
      refine .inr ⟨a, b, s, t, ha, hb, ⟨q, hq, hqx⟩, ⟨r, hr, hrx⟩,
        h.kind_of_dependsOn ht hshaped hr, hflows, ?_⟩
      by_cases hab : a = b
      · subst hab
        exact .inr ⟨rfl, Option.some.inj (ha.symm.trans hb)⟩
      · refine .inl (mem_edges_build.mpr ⟨hab, s, t, ha, hb, ?_⟩)
        exact Statement.feeds_eq_true_iff.mpr ⟨q, hq, r, hr, hqx.trans hrx.symm⟩

end Lists

/-- In every program, however it was qualified, the two graphs agree. -/
theorem ofSource_graphs_agree (h : ofSource source config = .ok p) (roots : List Path) :
    (roots.foldl qualify p).GraphsAgree := by
  obtain ⟨_, hlists⟩ := exists_lists_of_ofSource h
  obtain ⟨_, hqualified⟩ := hlists.exists_foldl_qualify roots
  exact hqualified.graphsAgree

/-- A rule that feeds itself, with the fact that it starts from and a constraint
and an output that it ends in. -/
theorem ofSource_graphs_agree_of_recursion :
    ∃ source p, (ProgramReader.mk (.ofFiles []) 100).readText ⟨"p.lp"⟩
        "q(1). q(X) :- q(X). :- q(1). #show q/1." = .ok source ∧ ofSource source {} = .ok p ∧
      ([⟨"src"⟩].foldl qualify p).GraphsAgree ∧
      ([⟨"src"⟩].foldl qualify p).statementGraph.edges.toList = [⟨0, 1⟩, ⟨0, 2⟩, ⟨1, 2⟩] ∧
      ([⟨"src"⟩].foldl qualify p).definitionGraph.edges.toList =
        [⟨"q/1", "Constraint#0"⟩, ⟨"q/1", "q/1"⟩] := by
  have hedges : (parseItems ⟨"p.lp"⟩ "q(1). q(X) :- q(X). :- q(1). #show q/1.").toOption.map
      (fun items =>
      (targetsOf items, (ofSource ⟨⟨"p.lp"⟩, statementsOf items,
        [.ofText ⟨"p.lp"⟩ "q(1). q(X) :- q(X). :- q(1). #show q/1."]⟩ {}).toOption.map fun p =>
          (([⟨"src"⟩].foldl qualify p).statementGraph.edges.toList,
            ([⟨"src"⟩].foldl qualify p).definitionGraph.edges.toList))) =
      some ([], some ([⟨0, 1⟩, ⟨0, 2⟩, ⟨1, 2⟩], [⟨"q/1", "Constraint#0"⟩, ⟨"q/1", "q/1"⟩])) := by
    decide +kernel
  obtain ⟨items, hparse, hitems⟩ := exists_ok_of_toOption hedges
  obtain ⟨hnone, hprogram⟩ := Prod.mk.inj hitems
  obtain ⟨p, hp, hgraphs⟩ := exists_ok_of_toOption hprogram
  have hread := ProgramReader.readText_of_targetsOf_eq_nil ⟨.ofFiles [], 100⟩ hparse hnone
  exact ⟨_, p, hread, hp, ofSource_graphs_agree hp [⟨"src"⟩], Prod.mk.inj hgraphs⟩

end AspAtlas.Program
