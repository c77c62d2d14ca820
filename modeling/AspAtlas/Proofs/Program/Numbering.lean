import AspAtlas.Proofs.Graph.Definition
import AspAtlas.Proofs.Program.Listing
/-!
Constraints stay apart. They are numbered in the order of the nodes, over all files of a program;
the number ends the name that a constraint has in the definition graph, so that neither another
constraint nor a signature has this name, whatever the qualifiers.
-/
namespace AspAtlas

namespace OrderedSet

variable {α : Type} [Ord α] [Std.TransOrd α]

theorem nodup (s : OrderedSet α) : s.toList.Nodup :=
  s.ascending.imp fun {a b} hlt heq => by simp [heq] at hlt

/-- A set has as many elements as a list of them without repetitions. -/
theorem length_eq_of_nodup {s : OrderedSet α} {xs : List α} (hxs : xs.Nodup)
    (hsame : ∀ x, x ∈ s ↔ x ∈ xs) : s.toList.length = xs.length :=
  ((List.perm_ext_iff_of_nodup s.nodup hxs).mpr hsame).length_eq

end OrderedSet

namespace Yield

/-- The constraints among some yields, own and external together in order. -/
def constraints (yields : List Yield) : List Statement :=
  (yields.filterMap statement?).filter fun s => s.kind = .constraint

theorem mem_constraints {yields : List Yield} {s : Statement} :
    s ∈ constraints yields ↔ (∃ y ∈ yields, y.statement? = some s) ∧ s.kind = .constraint := by
  simp only [constraints, List.mem_filter, List.mem_filterMap, decide_eq_true_eq]

end Yield

namespace Program

/-- A node yields a constraint exactly if it is a rule which defines nothing and depends on
something, and what it yields has its place. -/
structure YieldsConstraint (p : Program) (n : Node) (y : Yield) : Prop where
  constraint : (∃ s, y.statement? = some s ∧ s.kind = .constraint) ↔
    n.kind = .rule ∧ (p.symbols.collect n).defines = [] ∧ (p.symbols.collect n).dependsOn ≠ []
  location : ∀ s, y.statement? = some s → s.location = n.location

/-- The constraints among the yields of a program are numbered without a gap and named by their
number; they have as many names in the definition graph, which are no other names of the graph, and
to each lead edges from the dependencies of its constraint only. -/
structure ConstraintsApart (p : Program) (yields : List Yield) : Prop where
  own : p.statements = yields.filterMap Yield.own?
  external : p.external = yields.filterMap Yield.external?
  diagnostics : p.diagnostics = yields.filterMap Yield.diagnostic?
  numbered : ∀ (i : Nat) (c : Statement), (Yield.constraints yields)[i]? = some c →
    c.constraintIndex = some i ∧ c.identity = s!"Constraint#{i}"
  counted : (p.definitionGraph.names .constraints).toList.length = (Yield.constraints yields).length
  named : ∀ c ∈ Yield.constraints yields,
    DefinitionGraph.constraintName p.path c ∈ p.definitionGraph.names .constraints ∧
    (∀ group, group ≠ .constraints →
      DefinitionGraph.constraintName p.path c ∉ p.definitionGraph.names group) ∧
    DefinitionGraph.constraintName p.path c ∉ p.definitionGraph.outputs
  edges : ∀ c ∈ Yield.constraints yields, ∀ x,
    ⟨x, DefinitionGraph.constraintName p.path c⟩ ∈ p.definitionGraph.edges ↔
      ∃ q ∈ c.dependsOn, q.signature = x

variable {source : ParsedSource} {config : AnalysisConfig} {p : Program}
  {decorate : Statement → Statement} {s : Statement} {x : String} {group : DefinitionGroup}

/-- The name of a constraint ends in its identity. -/
theorem exists_lead_of_constraintName (ownFile : Path) (s : Statement) :
    ∃ lead, DefinitionGraph.constraintName ownFile s = lead ++ s.identity := by
  rw [DefinitionGraph.constraintName]
  cases s.isIn ownFile with
  | true => exact ⟨"", (String.empty_append).symm⟩
  | false => exact ⟨s.qualifier, rfl⟩

namespace Lists

theorem mem_constraints (h : p.Lists source decorate) :
    s ∈ Yield.constraints (p.yields source decorate) ↔ s ∈ p.allStatements ∧
      s.kind = .constraint := by
  rw [Yield.mem_constraints, h.mem_allStatements]

/-- The constraints are those of the classification, decorated. -/
theorem constraints_eq (h : p.Lists source decorate) :
    Yield.constraints (p.yields source decorate) =
      (Classification.constraints (Classification.ofNodes p.symbols source.nodes)).map
        decorate := by
  have hstatements : (p.yields source decorate).filterMap Yield.statement? =
      ((Classification.ofNodes p.symbols source.nodes).filterMap Classification.statement?).map
        decorate := by
    rw [yields, List.filterMap_map, List.map_filterMap]
    exact List.filterMap_congr fun c _ => statement?_yieldOf p.path c
  rw [Yield.constraints, Classification.constraints, hstatements, List.filter_map]
  simp only [Function.comp_def, h.decorates.kind]

theorem numbered (h : p.Lists source decorate) {i : Nat}
    (hi : (Yield.constraints (p.yields source decorate))[i]? = some s) :
    s.constraintIndex = some i ∧ s.identity = Classification.constraintName i := by
  have hkind : s.kind = .constraint := (Yield.mem_constraints.mp (List.mem_of_getElem? hi)).2
  rw [h.constraints_eq, List.getElem?_map] at hi
  obtain ⟨bare, hbare, rfl⟩ := Option.map_eq_some_iff.mp hi
  obtain ⟨hnumber, hidentity⟩ := Classification.constraints_numbered p.symbols 0 source.nodes hbare
  rw [Nat.zero_add] at hnumber hidentity
  rw [Statement.constraintIndex, if_pos hkind, h.decorates.number, h.decorates.identity]
  exact ⟨hnumber, hidentity⟩

/-- Different constraints have different names. -/
theorem constraintName_inj (h : p.Lists source decorate) {i j : Nat} {t : Statement}
    (hi : (Yield.constraints (p.yields source decorate))[i]? = some s)
    (hj : (Yield.constraints (p.yields source decorate))[j]? = some t)
    (hname : DefinitionGraph.constraintName p.path s = DefinitionGraph.constraintName p.path t) :
    i = j := by
  obtain ⟨lead, hlead⟩ := exists_lead_of_constraintName p.path s
  obtain ⟨lead', hlead'⟩ := exists_lead_of_constraintName p.path t
  rw [hlead, hlead', (h.numbered hi).2, (h.numbered hj).2] at hname
  exact Classification.append_constraintName_inj hname

theorem nodup_constraintNames (h : p.Lists source decorate) :
    ((Yield.constraints (p.yields source decorate)).map
      (DefinitionGraph.constraintName p.path)).Nodup := by
  apply List.pairwise_iff_getElem.mpr
  intro i j hi hj hij he
  rw [List.length_map] at hi hj
  rw [List.getElem_map, List.getElem_map] at he
  have hsame := h.constraintName_inj (List.getElem?_eq_getElem hi) (List.getElem?_eq_getElem hj) he
  omega

/-- The name of a constraint is no signature. -/
theorem not_isSignature_constraintName (h : p.Lists source decorate)
    (hs : s ∈ Yield.constraints (p.yields source decorate)) :
    ¬ Symbol.IsSignature (DefinitionGraph.constraintName p.path s) := by
  obtain ⟨i, hi⟩ := List.getElem?_of_mem hs
  obtain ⟨lead, hlead⟩ := exists_lead_of_constraintName p.path s
  rw [hlead, (h.numbered hi).2]
  exact Classification.not_isSignature_append_constraintName lead i

/-- All other groups hold signatures. -/
theorem isSignature_of_mem_names (h : p.Lists source decorate) (hgroup : group ≠ .constraints)
    (hx : x ∈ p.definitionGraph.names group) : Symbol.IsSignature x := by
  obtain ⟨s, hs, hadds⟩ := (DefinitionGraph.exact_build p.path p.allStatements).mem_names.mp hx
  have hclassified := h.classified_of_mem hs
  cases hadds with
  | fact hkind hq | rule hkind hq => exact hclassified.symbols _ (.inl hq)
  | input hkind => exact hclassified.declared (.inl hkind)
  | constraint hkind => exact absurd rfl hgroup

theorem mem_names_constraints (h : p.Lists source decorate) :
    x ∈ p.definitionGraph.names .constraints ↔
      x ∈ (Yield.constraints (p.yields source decorate)).map
        (DefinitionGraph.constraintName p.path) := by
  rw [definitionGraph, (DefinitionGraph.exact_build p.path p.allStatements).mem_names, List.mem_map]
  constructor
  · rintro ⟨s, hs, hadds⟩
    cases hadds with
    | constraint hkind => exact ⟨s, h.mem_constraints.mpr ⟨hs, hkind⟩, rfl⟩
  · rintro ⟨s, hs, rfl⟩
    obtain ⟨hs, hkind⟩ := h.mem_constraints.mp hs
    exact ⟨s, hs, .constraint hkind⟩

/-- What flows into the name of a constraint is what the constraint depends on. -/
theorem edge_to_constraint (h : p.Lists source decorate)
    (hs : s ∈ Yield.constraints (p.yields source decorate)) :
    ⟨x, DefinitionGraph.constraintName p.path s⟩ ∈ p.definitionGraph.edges ↔
      ∃ q ∈ s.dependsOn, q.signature = x := by
  have hfresh := h.not_isSignature_constraintName hs
  obtain ⟨hmem, hkind⟩ := h.mem_constraints.mp hs
  rw [definitionGraph, (DefinitionGraph.exact_build p.path p.allStatements).edges]
  constructor
  · rintro ⟨t, ht, hx, hflows⟩
    generalize hname : DefinitionGraph.constraintName p.path s = name at hflows hfresh
    cases hflows with
    | rule hrule hq => exact absurd ((h.classified_of_mem ht).symbols _ (.inl hq)) hfresh
    | output houtput => exact absurd ((h.classified_of_mem ht).declared (.inr houtput)) hfresh
    | constraint htkind =>
      obtain ⟨i, hi⟩ := List.getElem?_of_mem hs
      obtain ⟨j, hj⟩ := List.getElem?_of_mem (h.mem_constraints.mpr ⟨ht, htkind⟩)
      obtain rfl := h.constraintName_inj hi hj hname
      obtain rfl : s = t := Option.some.inj (hi.symm.trans hj)
      exact hx
  · intro hx
    exact ⟨s, hmem, hx, .constraint hkind⟩

theorem constraintsApart (h : p.Lists source decorate) :
    p.ConstraintsApart (p.yields source decorate) where
  own := h.statements
  external := h.external
  diagnostics := h.diagnostics
  numbered _ _ hi := h.numbered hi
  counted := by
    rw [OrderedSet.length_eq_of_nodup h.nodup_constraintNames fun x => h.mem_names_constraints,
      List.length_map]
  named c hc := by
    have hfresh := h.not_isSignature_constraintName hc
    refine ⟨h.mem_names_constraints.mpr (List.mem_map_of_mem hc), ?_, ?_⟩
    · intro group hgroup hmem
      exact hfresh (h.isSignature_of_mem_names hgroup hmem)
    · intro hmem
      obtain ⟨s, hs, hkind, hidentity⟩ :=
        ((DefinitionGraph.exact_build p.path p.allStatements).outputs _).mp hmem
      rw [← hidentity] at hfresh
      exact hfresh ((h.classified_of_mem hs).declared (.inr hkind))
  edges _ hc _ := h.edge_to_constraint hc

theorem yieldsConstraint (h : p.Lists source decorate) :
    List.Forall₂ p.YieldsConstraint source.nodes (p.yields source decorate) := by
  obtain ⟨numbered, hnumbered, hclassified⟩ :=
    Classification.ofNodesFrom_numbered p.symbols 0 source.nodes
  rw [yields, Classification.ofNodes, hclassified, List.map_map]
  nth_rewrite 1 [← hnumbered]
  rw [List.forall₂_map_left_iff, List.forall₂_map_right_iff, List.forall₂_same]
  intro x _
  constructor
  · rw [← Classification.exists_constraint_iff (k := x.1)]
    simp only [Function.comp_apply, statement?_yieldOf, Option.map_eq_some_iff,
      Classification.statement?_eq_some_iff]
    constructor
    · rintro ⟨_, ⟨s, hs, rfl⟩, hkind⟩
      rw [h.decorates.kind] at hkind
      exact ⟨s, hs, hkind⟩
    · rintro ⟨s, hs, hkind⟩
      exact ⟨_, ⟨s, hs, rfl⟩, (h.decorates.kind s).trans hkind⟩
  · intro s hs
    rw [Function.comp_apply, statement?_yieldOf] at hs
    obtain ⟨bare, hbare, rfl⟩ := Option.map_eq_some_iff.mp hs
    have hat := Classification.ofNode_at p.symbols x.1 x.2
    rw [Classification.statement?_eq_some_iff.mp hbare] at hat
    cases hat with
    | statement hlocation _ => rw [h.decorates.location, hlocation]

end Lists

/-- In every program, however it was qualified, the constraints stay apart. -/
theorem ofSource_constraints_apart (h : ofSource source config = .ok p) (roots : List Path) :
    ∃ yields, List.Forall₂ (roots.foldl qualify p).YieldsConstraint source.nodes yields ∧
      (roots.foldl qualify p).ConstraintsApart yields := by
  obtain ⟨_, hlists⟩ := exists_lists_of_ofSource h
  obtain ⟨_, hqualified⟩ := hlists.exists_foldl_qualify roots
  exact ⟨_, hqualified.yieldsConstraint, hqualified.constraintsApart⟩

/-- Two constraints of a file and one of a file that it includes, with a rule between them that is
neither; two source roots were tried. -/
theorem ofSource_constraints_apart_of_included :
    ∃ source p yields, ofSource source {} = .ok p ∧ source.nodes.length = 4 ∧
      List.Forall₂ ([⟨"src"⟩, ⟨"lib"⟩].foldl qualify p).YieldsConstraint source.nodes yields ∧
      ([⟨"src"⟩, ⟨"lib"⟩].foldl qualify p).ConstraintsApart yields ∧
      (([⟨"src"⟩, ⟨"lib"⟩].foldl qualify p).definitionGraph.names .constraints).toList =
        ["Constraint#0", "Constraint#1", "d.e.Constraint#2"] := by
  have hnames : (parseItems ⟨"p.lp"⟩ ":- a. :- 1 > 2. :- b.").toOption.map (fun own =>
      (parseItems ⟨"lib/d/e.lp"⟩ ":- c.").toOption.map fun included =>
        ((statementsOf own ++ statementsOf included).length,
          (ofSource ⟨⟨"p.lp"⟩, statementsOf own ++ statementsOf included, []⟩
            {}).toOption.map fun p =>
            (([⟨"src"⟩, ⟨"lib"⟩].foldl qualify p).definitionGraph.names .constraints).toList)) =
      some (some (4, some ["Constraint#0", "Constraint#1", "d.e.Constraint#2"])) := by
    decide +kernel
  obtain ⟨own, -, hincluded⟩ := exists_ok_of_toOption hnames
  obtain ⟨included, -, hprogram⟩ := exists_ok_of_toOption hincluded
  obtain ⟨hlength, hprogram⟩ := Prod.mk.inj hprogram
  obtain ⟨p, hp, hnames⟩ := exists_ok_of_toOption hprogram
  obtain ⟨yields, hyields, hapart⟩ := ofSource_constraints_apart hp [⟨"src"⟩, ⟨"lib"⟩]
  exact ⟨_, p, yields, hp, hlength, hyields, hapart, hnames⟩

end Program
end AspAtlas
