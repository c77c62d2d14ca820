import AspAtlas.Graph.Definition
import AspAtlas.Proofs.Ordered.Map
import Mathlib.Tactic.Common
/-!
What the definition graph of a list of statements says. Each statement adds its names and edges by
itself, and the graph holds exactly those; so it depends on which statements there are, and not on
their order or repetition, and the graph of two lists together is the union of their graphs.
-/
namespace AspAtlas

namespace DefinitionGroup

instance : Std.LawfulEqOrd DefinitionGroup where
  eq_of_compare {a b} h := by cases a <;> cases b <;> first | rfl | cases h
  compare_self {a} := by cases a <;> rfl

end DefinitionGroup

namespace Statement

theorem mem_signatures {symbols : List Symbol} {x : String} :
    x ∈ signatures symbols ↔ ∃ q ∈ symbols, q.signature = x := by
  simp only [signatures, OrderedSet.mem_ofList, List.mem_map]

/-- The names that a statement adds to the groups: a fact or a rule what it defines, an input its
identity, and a constraint its identity, qualified when it stands in another file. -/
inductive Adds (ownFile : Path) (s : Statement) : DefinitionGroup → String → Prop
  | fact {q : Symbol} (hkind : s.kind = .fact) (hq : q ∈ s.defines) :
      Adds ownFile s .facts q.signature
  | input (hkind : s.kind = .input) : Adds ownFile s .inputs s.identity
  | rule {q : Symbol} (hkind : s.kind = .rule) (hq : q ∈ s.defines) :
      Adds ownFile s .rules q.signature
  | constraint (hkind : s.kind = .constraint) :
      Adds ownFile s .constraints (if s.isIn ownFile then s.identity else s.qualifier ++ s.identity)

/-- What the dependencies of a statement flow into: what a rule defines, the name of a constraint,
or the identity of an output. -/
inductive FlowsInto (ownFile : Path) (s : Statement) : String → Prop
  | rule {q : Symbol} (hkind : s.kind = .rule) (hq : q ∈ s.defines) :
      FlowsInto ownFile s q.signature
  | constraint (hkind : s.kind = .constraint) :
      FlowsInto ownFile s (if s.isIn ownFile then s.identity else s.qualifier ++ s.identity)
  | output (hkind : s.kind = .output) : FlowsInto ownFile s s.identity

/-- A statement leads from each of its dependencies to what they flow into. -/
def Leads (ownFile : Path) (s : Statement) (x y : String) : Prop :=
  (∃ p ∈ s.dependsOn, p.signature = x) ∧ s.FlowsInto ownFile y

end Statement

namespace DefinitionGraph

variable {ownFile : Path} {ss ts : List Statement} {s : Statement} {g h : DefinitionGraph}
  {group : DefinitionGroup} {x y : String}

theorem mem_members : x ∈ members ownFile group s ↔ s.Adds ownFile group x := by
  constructor
  · intro hx
    cases hkind : s.kind <;> cases group <;>
      simp only [members, hkind, List.not_mem_nil, List.mem_singleton] at hx
    case fact.facts =>
      obtain ⟨q, hq, rfl⟩ := Statement.mem_signatures.mp hx
      exact .fact hkind hq
    case rule.rules =>
      obtain ⟨q, hq, rfl⟩ := Statement.mem_signatures.mp hx
      exact .rule hkind hq
    case input.inputs =>
      subst hx
      exact .input hkind
    case constraint.constraints =>
      subst hx
      exact .constraint hkind
  · intro hx
    cases hx with
    | fact hkind hq | rule hkind hq =>
      simp only [members, hkind]
      exact Statement.mem_signatures.mpr ⟨_, hq, rfl⟩
    | input hkind | constraint hkind =>
      simp only [members, hkind]
      exact List.mem_singleton_self _

theorem mem_outputsOf : x ∈ outputsOf s ↔ s.kind = .output ∧ s.identity = x := by
  cases hkind : s.kind <;> simp [outputsOf, hkind, eq_comm]

theorem mem_targets : y ∈ targets ownFile s ↔ s.FlowsInto ownFile y := by
  constructor
  · intro hy
    cases hkind : s.kind <;> simp only [targets, hkind, List.not_mem_nil, List.mem_singleton] at hy
    case rule =>
      obtain ⟨q, hq, rfl⟩ := Statement.mem_signatures.mp hy
      exact .rule hkind hq
    case constraint =>
      subst hy
      exact .constraint hkind
    case output =>
      subst hy
      exact .output hkind
  · intro hy
    cases hy with
    | rule hkind hq =>
      simp only [targets, hkind]
      exact Statement.mem_signatures.mpr ⟨_, hq, rfl⟩
    | constraint hkind | output hkind =>
      simp only [targets, hkind]
      exact List.mem_singleton_self _

theorem mem_edgesOf : ⟨x, y⟩ ∈ edgesOf ownFile s ↔ s.Leads ownFile x y := by
  simp only [edgesOf, List.mem_flatMap, List.mem_map, Edge.mk.injEq, Statement.Leads, ← mem_targets]
  constructor
  · rintro ⟨source, hsource, target, htarget, rfl, rfl⟩
    exact ⟨Statement.mem_signatures.mp hsource, htarget⟩
  · rintro ⟨hx, hy⟩
    exact ⟨x, Statement.mem_signatures.mpr hx, y, hy, rfl, rfl⟩

/-- The names of a group; a group that is missing has none. -/
def names (g : DefinitionGraph) (group : DefinitionGroup) : OrderedSet String :=
  (g.groups.get? group).getD .empty

/-- The groups, outputs and edges of two graphs, taken together one by one. -/
def union (g h : DefinitionGraph) : DefinitionGraph where
  groups := .ofList <| DefinitionGroup.all.map
    fun group => (group, (g.names group).union (h.names group))
  outputs := g.outputs.union h.outputs
  edges := g.edges.union h.edges

/-- A map with a value for every group holds each of them. -/
theorem get?_ofList_all {ν : Type} (f : DefinitionGroup → ν) (group : DefinitionGroup) :
    (OrderedMap.ofList (DefinitionGroup.all.map fun group => (group, f group))).get? group =
      some (f group) := by
  cases group <;> rfl

/-- A graph has exactly the names, outputs and edges that some statements add. -/
structure Exact (g : DefinitionGraph) (ownFile : Path) (ss : List Statement) : Prop where
  group : ∀ group, ∃ names, g.groups.get? group = some names ∧
    ∀ x, x ∈ names ↔ ∃ s ∈ ss, s.Adds ownFile group x
  outputs : ∀ x, x ∈ g.outputs ↔ ∃ s ∈ ss, s.kind = .output ∧ s.identity = x
  edges : ∀ x y, ⟨x, y⟩ ∈ g.edges ↔ ∃ s ∈ ss, s.Leads ownFile x y

theorem exact_build (ownFile : Path) (ss : List Statement) :
    (build ownFile ss).Exact ownFile ss where
  group group := by
    refine ⟨_, get?_ofList_all _ group, fun x => ?_⟩
    simp only [OrderedSet.mem_ofList, List.mem_flatMap, mem_members]
  outputs x := by simp only [build, OrderedSet.mem_ofList, List.mem_flatMap, mem_outputsOf]
  edges x y := by simp only [build, OrderedSet.mem_ofList, List.mem_flatMap, mem_edgesOf]

namespace Exact

theorem mem_names (hg : g.Exact ownFile ss) :
    x ∈ g.names group ↔ ∃ s ∈ ss, s.Adds ownFile group x := by
  obtain ⟨names, hnames, hmem⟩ := hg.group group
  rw [DefinitionGraph.names, hnames]
  exact hmem x

/-- The statements that some names, outputs and edges come from determine the graph. -/
theorem eq (hg : g.Exact ownFile ss) (hh : h.Exact ownFile ss) : g = h := by
  have hgroups : g.groups = h.groups := by
    apply OrderedMap.ext_get?
    intro group
    obtain ⟨names, hnames, hmem⟩ := hg.group group
    obtain ⟨names', hnames', hmem'⟩ := hh.group group
    have hsame : names = names' := OrderedSet.eq_iff_mem.mpr fun x => (hmem x).trans (hmem' x).symm
    rw [hnames, hnames', hsame]
  have houtputs : g.outputs = h.outputs :=
    OrderedSet.eq_iff_mem.mpr fun x => (hg.outputs x).trans (hh.outputs x).symm
  have hedges : g.edges = h.edges :=
    OrderedSet.eq_iff_mem.mpr
      fun e => (hg.edges e.source e.target).trans (hh.edges e.source e.target).symm
  cases g
  cases h
  simp_all

theorem union (hg : g.Exact ownFile ss) (hh : h.Exact ownFile ts) :
    (g.union h).Exact ownFile (ss ++ ts) := by
  have hjoin (P : Statement → Prop) :
      (∃ s ∈ ss ++ ts, P s) ↔ (∃ s ∈ ss, P s) ∨ ∃ s ∈ ts, P s := by
    simp only [List.mem_append, or_and_right, exists_or]
  constructor
  · intro group
    refine ⟨_, get?_ofList_all _ group, fun x => ?_⟩
    rw [OrderedSet.mem_union, hg.mem_names, hh.mem_names, hjoin]
  · intro x
    rw [DefinitionGraph.union, OrderedSet.mem_union, hg.outputs, hh.outputs, hjoin]
  · intro x y
    rw [DefinitionGraph.union, OrderedSet.mem_union, hg.edges, hh.edges, hjoin]

/-- Other lists of the same statements have the same graph. -/
theorem congr (hg : g.Exact ownFile ss) (hsame : ∀ s, s ∈ ss ↔ s ∈ ts) : g.Exact ownFile ts := by
  have hmoved (P : Statement → Prop) : (∃ s ∈ ss, P s) ↔ ∃ s ∈ ts, P s := by
    simp only [hsame]
  constructor
  · intro group
    obtain ⟨names, hnames, hmem⟩ := hg.group group
    exact ⟨names, hnames, fun x => (hmem x).trans (hmoved _)⟩
  · intro x
    exact (hg.outputs x).trans (hmoved _)
  · intro x y
    exact (hg.edges x y).trans (hmoved _)

end Exact

/-- The graph of some statements is the only one with exactly what they add. The graph of two lists
in one is the union of their graphs, and lists of the same statements, in any order and with any
repetitions, have one graph. -/
theorem build_exact_and_compositional (ownFile : Path) (ss ts : List Statement) :
    (build ownFile ss).Exact ownFile ss ∧
      (∀ g : DefinitionGraph, g.Exact ownFile ss → g = build ownFile ss) ∧
      build ownFile (ss ++ ts) = (build ownFile ss).union (build ownFile ts) ∧
      ((∀ s, s ∈ ss ↔ s ∈ ts) → build ownFile ss = build ownFile ts) := by
  have hss := exact_build ownFile ss
  have hts := exact_build ownFile ts
  refine ⟨hss, fun g hg => hg.eq hss, ?_, fun hsame => ?_⟩
  · exact (exact_build ownFile (ss ++ ts)).eq (hss.union hts)
  · exact (hss.congr hsame).eq hts

/-- A fact, a rule, a constraint of an included file and an output, one after another. -/
def chain : List Statement :=
  [.bare .fact "p/0" [.occurrence "p" [] default none] [] default none,
    .bare .rule "q/0" [.occurrence "q" [] default none]
      [.occurrence "p" [] default none] default none,
    { Statement.bare .constraint "Constraint#0" [] [.occurrence "q" [] default none]
      ⟨⟨"lib.lp"⟩, .start, .start⟩
        (some 0) with qualifier := "lib." },
    .bare .output "q/0" [] [.occurrence "q" [] default none] default none]

/-- The included constraint is under its qualified name in the graph, which the list read backwards
and twice over has as well. -/
theorem build_exact_and_compositional_of_chain :
    ⟨"q/0", "lib.Constraint#0"⟩ ∈ (build ⟨"a.lp"⟩ chain).edges ∧
      "lib.Constraint#0" ∈ (build ⟨"a.lp"⟩ chain).names .constraints ∧
      build ⟨"a.lp"⟩ chain = build ⟨"a.lp"⟩ (chain.reverse ++ chain) ∧
      build ⟨"a.lp"⟩ (chain ++ (chain.reverse ++ chain)) =
        (build ⟨"a.lp"⟩ chain).union (build ⟨"a.lp"⟩ (chain.reverse ++ chain)) := by
  obtain ⟨hexact, -, hunion, hsame⟩ :=
    build_exact_and_compositional ⟨"a.lp"⟩ chain (chain.reverse ++ chain)
  have hincluded : (chain[2]).isIn ⟨"a.lp"⟩ = false := by decide
  have hconstraint : chain[2] ∈ chain := List.getElem_mem _
  refine ⟨?_, ?_, ?_, hunion⟩
  · refine (hexact.edges _ _).mpr ⟨chain[2], hconstraint, ⟨_, List.mem_singleton_self _, rfl⟩, ?_⟩
    have hflows := @Statement.FlowsInto.constraint ⟨"a.lp"⟩ chain[2] rfl
    rw [hincluded] at hflows
    exact hflows
  · refine hexact.mem_names.mpr ⟨chain[2], hconstraint, ?_⟩
    have hadds := @Statement.Adds.constraint ⟨"a.lp"⟩ chain[2] rfl
    rw [hincluded] at hadds
    exact hadds
  · apply hsame
    intro s
    simp only [List.mem_append, List.mem_reverse, or_self]

end DefinitionGraph
end AspAtlas
