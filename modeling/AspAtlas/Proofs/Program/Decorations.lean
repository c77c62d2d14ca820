import AspAtlas.Proofs.Program.Numbering
/-!
Qualifying and attaching source texts, any number of times and in any order. Every step keeps
what statements say; so in the end a statement has the qualifier of the last step that
qualifies and, if there was a step for it, its source text. Only the names of included
constraints in the definition graph carry qualifiers, and the number at their end keeps them
apart from each other and from all other names.
-/
namespace AspAtlas

theorem OrderedSet.ofList_map_toList {α β : Type} [Ord α] [Std.TransOrd α]
    [Std.LawfulEqOrd α] [Ord β] [Std.TransOrd β] [Std.LawfulEqOrd β] (f : α → β) (xs : List α) :
    ofList ((ofList xs).toList.map f) = ofList (xs.map f) := by
  have hsame (x : α) : x ∈ (ofList xs).toList ↔ x ∈ xs := mem_ofList
  refine eq_iff_mem.mpr fun y => ?_
  simp only [mem_ofList, List.mem_map, hsame]

/-- A step that decorates the statements of a program. -/
inductive Decoration where
  | qualify (sourceRoot : Path)
  | attachSource

namespace Decoration

/-- The source root of a step that qualifies. -/
def root? : Decoration → Option Path
  | qualify sourceRoot => some sourceRoot
  | attachSource => none

/-- Whether a step attaches source texts. -/
def attaches : Decoration → Bool
  | qualify _ => false
  | attachSource => true

/-- The source root of the last step that qualifies. -/
def lastRoot? (steps : List Decoration) : Option Path := (steps.filterMap root?).getLast?

end Decoration

theorem Statement.Decorates.label {f : Statement → Statement} (hf : Decorates f) (s : Statement) :
    (f s).label = s.label := by
  rw [Statement.label, hf.identity, hf.location, Statement.label]

namespace StatementGraph

variable {f : Statement → Statement}

/-- Decorations do not show in the statement graph. -/
theorem build_map (hf : Statement.Decorates f) (ss : List Statement) :
    build (ss.map f) = build ss := by
  have hmembers : ((ss.map f).filter fun s => s.kind.isRuleShaped).zipIdx =
      (ss.filter fun s => s.kind.isRuleShaped).zipIdx.map (Prod.map f id) := by
    rw [List.filter_map, List.zipIdx_map]
    simp only [Function.comp_def, hf.kind]
  have hfeeds (s t : Statement) : (f s).feeds (f t) = s.feeds t := by
    rw [Statement.feeds, hf.defines, hf.dependsOn, Statement.feeds]
  have hnodes (s : Statement) (id : Nat) : nodeOf (f s) id = nodeOf s id := by
    rw [nodeOf, hf.label, hf.identity, hf.kind, hf.location, nodeOf]
  have hedges (members : List (Statement × Nat)) :
      edgesOf (members.map (Prod.map f id)) = edgesOf members := by
    simp only [edgesOf, List.flatMap_map, List.filterMap_map, Function.comp_def,
      Prod.map, hfeeds, id]
  rw [build, hmembers, hedges, List.map_map]
  simp only [Function.comp_def, Prod.map, hnodes, id]
  rfl

end StatementGraph

namespace DefinitionGraph

/-- A name of the graph: in a group, as an output or at an end of an edge. -/
def Mentions (g : DefinitionGraph) (x : String) : Prop :=
  (∃ group, x ∈ g.names group) ∨ x ∈ g.outputs ∨ ∃ y, ⟨x, y⟩ ∈ g.edges ∨ ⟨y, x⟩ ∈ g.edges

/-- The graph with other names in the group of constraints and at the ends of edges. -/
def renamed (g : DefinitionGraph) (rename : String → String) : DefinitionGraph where
  groups := .ofList <| DefinitionGroup.all.map fun group =>
    (group, if group = .constraints then .ofList ((g.names group).toList.map rename)
      else g.names group)
  outputs := g.outputs
  edges := .ofList (g.edges.toList.map fun e => ⟨rename e.source, rename e.target⟩)

/-- A renaming reaches a statement if it gives the constraint its new name and keeps all other names
that the statement has in the graph. -/
structure Reaches (ownFile : Path) (f : Statement → Statement) (rename : String → String)
    (s : Statement) : Prop where
  constraint : s.kind = .constraint → rename (constraintName ownFile s) =
    constraintName ownFile (f s)
  signature : ∀ q, q ∈ s.defines ∨ q ∈ s.dependsOn → rename q.signature = q.signature
  output : s.kind = .output → rename s.identity = s.identity

variable {ownFile : Path} {f : Statement → Statement} {rename : String → String} {s : Statement}

theorem map_signatures {symbols : List Symbol}
    (h : ∀ q ∈ symbols, rename q.signature = q.signature) :
    (Statement.signatures symbols).toList.map rename = (Statement.signatures symbols).toList := by
  refine (List.map_congr_left fun x hx => ?_).trans (List.map_id _)
  obtain ⟨q, hq, rfl⟩ := Statement.mem_signatures.mp hx
  exact h q hq

namespace Reaches

theorem members (h : Reaches ownFile f rename s) (hf : Statement.Decorates f)
    (group : DefinitionGroup) : members ownFile group (f s) =
      if group = .constraints then (members ownFile group s).map rename
        else members ownFile group s := by
  cases hkind : s.kind <;> cases group <;>
    simp [DefinitionGraph.members, hf.kind, hkind, hf.identity, Statement.definedSignatures,
      hf.defines, h.constraint]

theorem targets (h : Reaches ownFile f rename s) (hf : Statement.Decorates f) :
    targets ownFile (f s) = (targets ownFile s).map rename := by
  cases hkind : s.kind with
  | rule =>
    simp only [DefinitionGraph.targets, hf.kind, hkind, Statement.definedSignatures, hf.defines]
    exact (map_signatures fun q hq => h.signature q (.inl hq)).symm
  | constraint => simp [DefinitionGraph.targets, hf.kind, hkind, h.constraint]
  | output => simp [DefinitionGraph.targets, hf.kind, hkind, hf.identity, h.output]
  | _ => simp [DefinitionGraph.targets, hf.kind, hkind]

theorem edgesOf (h : Reaches ownFile f rename s) (hf : Statement.Decorates f) :
    edgesOf ownFile (f s) =
      (edgesOf ownFile s).map fun e => ⟨rename e.source, rename e.target⟩ := by
  have hsources := map_signatures fun q hq => h.signature q (.inr hq)
  rw [DefinitionGraph.edgesOf, DefinitionGraph.edgesOf, h.targets hf,
    Statement.dependencySignatures, hf.dependsOn, ← hsources]
  simp only [Statement.dependencySignatures, List.flatMap_map, List.map_flatMap, List.map_map,
    Function.comp_def]

end Reaches

/-- The graph of decorated statements is the graph of the statements, renamed. -/
theorem build_map {ss : List Statement} (hf : Statement.Decorates f)
    (h : ∀ s ∈ ss, Reaches ownFile f rename s) :
    build ownFile (ss.map f) = (build ownFile ss).renamed rename := by
  have houtputs : (ss.map f).flatMap outputsOf = ss.flatMap outputsOf := by
    rw [List.flatMap_map]
    refine List.flatMap_congr fun s _ => ?_
    rw [outputsOf, hf.kind, hf.identity, outputsOf]
  have hedges : (ss.map f).flatMap (edgesOf ownFile) =
      (ss.flatMap (edgesOf ownFile)).map fun e => ⟨rename e.source, rename e.target⟩ := by
    rw [List.flatMap_map, List.map_flatMap]
    exact List.flatMap_congr fun s hs => (h s hs).edgesOf hf
  have hgroup (group : DefinitionGroup) :
      OrderedSet.ofList ((ss.map f).flatMap (members ownFile group)) =
      if group = .constraints then .ofList (((build ownFile ss).names group).toList.map rename)
      else (build ownFile ss).names group := by
    have hnames : (build ownFile ss).names group =
        .ofList (ss.flatMap (members ownFile group)) := by
      rw [names, build, get?_ofList_all, Option.getD_some]
    have hmembers : (ss.map f).flatMap (members ownFile group) =
        ss.flatMap fun s =>
          if group = .constraints then (members ownFile group s).map rename
            else members ownFile group s := by
      rw [List.flatMap_map]
      exact List.flatMap_congr fun s hs => (h s hs).members hf group
    rw [hnames, hmembers]
    split
    · rw [OrderedSet.ofList_map_toList, List.map_flatMap]
    · rfl
  rw [renamed, build, houtputs, hedges]
  simp only [hgroup]
  rw [build, OrderedSet.ofList_map_toList]

end DefinitionGraph

namespace Program

variable {source : ParsedSource} {config : AnalysisConfig} {p : Program} {s t : Statement}
  {decorate f : Statement → Statement}

/-- The program after one more step. -/
def decorateBy (p : Program) : Decoration → Program
  | .qualify sourceRoot => p.qualify sourceRoot
  | .attachSource => p.attachSource

/-- What some steps leave a statement as. -/
def decorated (p : Program) (steps : List Decoration) (s : Statement) : Statement :=
  { s with
    qualifier := ((Decoration.lastRoot? steps).map s.sourceFile.qualifier).getD s.qualifier
    source := if steps.any Decoration.attaches then p.sourceText? s else s.source }

theorem decorates_decorated (p : Program) (steps : List Decoration) :
    Statement.Decorates (p.decorated steps) := by
  constructor <;> intro s <;> rfl

theorem mapStatements_mapStatements (f g : Statement → Statement) (p : Program) :
    (p.mapStatements f).mapStatements g = p.mapStatements (g ∘ f) := by
  simp only [mapStatements, List.map_map]

/-- Of the steps before, a step replaces those of its kind. -/
theorem foldl_decorateBy (p : Program) (steps : List Decoration) :
    steps.foldl decorateBy p = p.mapStatements (p.decorated steps) := by
  induction steps using List.reverseRecOn with
  | nil =>
    have hid : p.decorated [] = id := by
      funext s
      simp [decorated, Decoration.lastRoot?]
    simp [hid, mapStatements]
  | append_singleton steps step ih =>
    rw [List.foldl_append, ih, List.foldl_cons, List.foldl_nil]
    cases step with
    | qualify sourceRoot =>
      rw [decorateBy, qualify, mapStatements_mapStatements]
      refine congrArg p.mapStatements (funext fun s => ?_)
      simp [decorated, Decoration.lastRoot?, Decoration.root?, Decoration.attaches]
    | attachSource =>
      rw [decorateBy, attachSource, mapStatements_mapStatements]
      refine congrArg p.mapStatements (funext fun s => ?_)
      simp [decorated, Decoration.lastRoot?, Decoration.root?, Decoration.attaches, sourceText?,
        source?, mapStatements]

theorem undecorated_of_ofNode {r : SymbolRegistry} {k : Nat} {n : Node}
    (h : Classification.ofNode r k n = .statement s) : s.qualifier = "" ∧ s.source = none := by
  rcases Classification.ofNode_eq_statement h with ⟨-, hrule⟩ | ⟨-, _, _, rfl, -⟩
  · generalize r.collect n = sets at hrule
    obtain ⟨defines, dependsOn⟩ := sets
    cases defines <;> cases dependsOn <;> cases hrule <;> exact ⟨rfl, rfl⟩
  · exact ⟨rfl, rfl⟩

theorem undecorated_annotateWith (annotators : List (Path × Annotator)) (s : Statement) :
    (annotateWith annotators s).qualifier = s.qualifier ∧
    (annotateWith annotators s).source = s.source := by
  rw [annotateWith]
  split <;> exact ⟨rfl, rfl⟩

/-- A program starts out without decorations. -/
theorem undecorated_of_ofSource (h : ofSource source config = .ok p) (hs : s ∈ p.allStatements) :
    s.qualifier = "" ∧ s.source = none := by
  obtain ⟨extractor, _, -, -, -, hstatements, -⟩ := ofSource_spec h
  have hfile : s.isIn s.sourceFile = true := Path.beq_iff.mpr rfl
  have hannotated : s ∈ p.allStatements.filter fun t => t.isIn s.sourceFile :=
    List.mem_filter.mpr ⟨hs, hfile⟩
  rw [hstatements, List.mem_filter, annotated] at hannotated
  obtain ⟨bare, hbare, rfl⟩ := List.mem_map.mp hannotated.1
  obtain ⟨c, hc, hstatement⟩ := List.mem_filterMap.mp hbare
  obtain ⟨k, n, rfl⟩ := Classification.exists_ofNode_of_mem hc
  rw [(undecorated_annotateWith _ bare).1, (undecorated_annotateWith _ bare).2]
  exact undecorated_of_ofNode (Classification.statement?_eq_some_iff.mp hstatement)

namespace Lists

/-- The identity of a constraint tells it, whatever stands in front. -/
theorem eq_of_append_identity (h : p.Lists source decorate) (hs : s ∈ p.allStatements)
    (hskind : s.kind = .constraint) (ht : t ∈ p.allStatements) (htkind : t.kind = .constraint)
    {lead lead' : String} (hname : lead ++ s.identity = lead' ++ t.identity) : s = t := by
  obtain ⟨i, hi⟩ := List.getElem?_of_mem (h.mem_constraints.mpr ⟨hs, hskind⟩)
  obtain ⟨j, hj⟩ := List.getElem?_of_mem (h.mem_constraints.mpr ⟨ht, htkind⟩)
  rw [(h.numbered hi).2, (h.numbered hj).2] at hname
  obtain rfl := Classification.append_constraintName_inj hname
  exact Option.some.inj (hi.symm.trans hj)

theorem eq_of_identity (h : p.Lists source decorate) (hs : s ∈ p.allStatements)
    (hskind : s.kind = .constraint) (ht : t ∈ p.allStatements) (htkind : t.kind = .constraint)
    (hidentity : s.identity = t.identity) : s = t :=
  h.eq_of_append_identity hs hskind ht htkind (congrArg ("" ++ ·) hidentity)

theorem isIn_of_mem (h : p.Lists source decorate) :
    (∀ s ∈ p.statements, s.isIn p.path = true) ∧ ∀ s ∈ p.external, s.isIn p.path = false := by
  have hyield (c : Classification) :
      (∀ s, (yieldOf p.path decorate c).own? = some s → s.isIn p.path = true) ∧
        ∀ s, (yieldOf p.path decorate c).external? = some s → s.isIn p.path = false := by
    cases c with
    | statement bare =>
      rw [yieldOf]
      split <;> simp_all [Yield.own?, Yield.external?]
    | _ => simp [yieldOf, Yield.own?, Yield.external?]
  rw [h.statements, h.external]
  constructor <;> intro s hs <;> obtain ⟨y, hy, hs⟩ := List.mem_filterMap.mp hs <;>
    obtain ⟨c, -, rfl⟩ := List.mem_map.mp hy
  · exact (hyield c).1 s hs
  · exact (hyield c).2 s hs

theorem mem_external_iff (h : p.Lists source decorate) :
    s ∈ p.external ↔ s ∈ p.allStatements ∧ s.isIn p.path = false := by
  constructor
  · intro hs
    exact ⟨List.mem_append_right _ hs, h.isIn_of_mem.2 s hs⟩
  · rintro ⟨hs, hin⟩
    refine (List.mem_append.mp hs).resolve_left fun hown => ?_
    rw [h.isIn_of_mem.1 s hown] at hin
    cases hin

end Lists

/-- The names that constraints of included files have once statements are
decorated; other names stay. -/
def constraintNames (p : Program) (f : Statement → Statement) (x : String) : String :=
  ((p.external.find? fun s => s.kind = .constraint ∧ s.identity = x).map
    fun s => (f s).displayName).getD x

section Names

variable {x y : String}

theorem constraintNames_of_external (h : p.Lists source decorate) (hs : s ∈ p.external)
    (hkind : s.kind = .constraint) : p.constraintNames f s.identity = (f s).displayName := by
  have hsome : (p.external.find? fun t => t.kind = .constraint ∧
      t.identity = s.identity).isSome := by
    rw [List.find?_isSome]
    exact ⟨s, hs, by simp [hkind]⟩
  obtain ⟨t, ht⟩ := Option.isSome_iff_exists.mp hsome
  have hfound := List.find?_some ht
  obtain ⟨htkind, hidentity⟩ := of_decide_eq_true hfound
  have htmem := List.mem_append_right p.statements (List.mem_of_find?_eq_some ht)
  obtain rfl := h.eq_of_identity htmem htkind
    (List.mem_append_right p.statements hs) hkind hidentity
  rw [constraintNames, ht, Option.map_some, Option.getD_some]

theorem constraintNames_of_forall_ne (h : ∀ s ∈ p.external, s.kind = .constraint → s.identity ≠ x) :
    p.constraintNames f x = x := by
  have hnone : p.external.find? (fun s => s.kind = .constraint ∧ s.identity = x) = none := by
    rw [List.find?_eq_none]
    intro s hs hfound
    obtain ⟨hkind, hidentity⟩ := of_decide_eq_true hfound
    exact h s hs hkind hidentity
  rw [constraintNames, hnone]
  rfl

theorem constraintNames_of_isSignature (h : p.Lists source decorate) (hx : Symbol.IsSignature x) :
    p.constraintNames f x = x := by
  refine constraintNames_of_forall_ne fun s hs hkind hidentity => ?_
  obtain ⟨i, hi⟩ := List.getElem?_of_mem (h.mem_constraints.mpr ⟨List.mem_append_right _ hs, hkind⟩)
  have hfresh := Classification.not_isSignature_append_constraintName "" i
  rw [String.empty_append, ← (h.numbered hi).2, hidentity] at hfresh
  exact hfresh hx

/-- A constraint has the new name for its old one in the definition graph. -/
theorem constraintNames_constraintName (h : p.Lists source decorate) (hf : Statement.Decorates f)
    (hplain : ∀ s ∈ p.allStatements, s.qualifier = "") (hs : s ∈ p.allStatements)
    (hkind : s.kind = .constraint) :
    p.constraintNames f (DefinitionGraph.constraintName p.path s) =
      DefinitionGraph.constraintName p.path (f s) := by
  rw [DefinitionGraph.constraintName, DefinitionGraph.constraintName, hf.isIn]
  cases hin : s.isIn p.path with
  | true =>
    rw [if_pos rfl, if_pos rfl, hf.identity]
    refine constraintNames_of_forall_ne fun t ht htkind hidentity => ?_
    obtain rfl := h.eq_of_identity (List.mem_append_right _ ht) htkind hs hkind hidentity
    rw [h.isIn_of_mem.2 t ht] at hin
    cases hin
  | false =>
    have hname : s.displayName = s.identity := by
      rw [Statement.displayName, hplain s hs, String.empty_append]
    rw [if_neg Bool.false_ne_true, if_neg Bool.false_ne_true, hname]
    exact constraintNames_of_external h (h.mem_external_iff.mpr ⟨hs, hin⟩) hkind

/-- The names of a definition graph are signatures and the names of constraints. -/
theorem Lists.isSignature_or_constraintName (h : p.Lists source decorate)
    (hx : p.definitionGraph.Mentions x) : Symbol.IsSignature x ∨
      ∃ s ∈ p.allStatements, s.kind = .constraint ∧
        x = DefinitionGraph.constraintName p.path s := by
  have hexact := DefinitionGraph.exact_build p.path p.allStatements
  have hflows {s : Statement} (hs : s ∈ p.allStatements) (hx : s.FlowsInto p.path x) :
      Symbol.IsSignature x ∨
        ∃ s ∈ p.allStatements, s.kind = .constraint ∧
          x = DefinitionGraph.constraintName p.path s := by
    cases hx with
    | rule hkind hq => exact .inl ((h.classified_of_mem hs).symbols _ (.inl hq))
    | constraint hkind => exact .inr ⟨s, hs, hkind, rfl⟩
    | output hkind => exact .inl ((h.classified_of_mem hs).declared (.inr hkind))
  rcases hx with ⟨group, hx⟩ | hx | ⟨y, hx | hx⟩
  · by_cases hgroup : group = .constraints
    · subst hgroup
      obtain ⟨s, hs, hadds⟩ := hexact.mem_names.mp hx
      cases hadds with
      | constraint hkind => exact .inr ⟨s, hs, hkind, rfl⟩
    · exact .inl (h.isSignature_of_mem_names hgroup hx)
  · obtain ⟨s, hs, hkind, rfl⟩ := (hexact.outputs x).mp hx
    exact .inl ((h.classified_of_mem hs).declared (.inr hkind))
  · obtain ⟨s, hs, ⟨q, hq, rfl⟩, -⟩ := (hexact.edges x y).mp hx
    exact .inl ((h.classified_of_mem hs).symbols q (.inr hq))
  · obtain ⟨s, hs, -, hx⟩ := (hexact.edges y x).mp hx
    exact hflows hs hx

/-- No two names of a definition graph get one name. -/
theorem constraintNames_injOn (h : p.Lists source decorate) (hf : Statement.Decorates f)
    (hplain : ∀ s ∈ p.allStatements, s.qualifier = "") (hx : p.definitionGraph.Mentions x)
    (hy : p.definitionGraph.Mentions y) (hsame : p.constraintNames f x = p.constraintNames f y) :
    x = y := by
  have hfresh {s : Statement} (hs : s ∈ p.allStatements) (hkind : s.kind = .constraint) :
      ¬ Symbol.IsSignature (DefinitionGraph.constraintName p.path (f s)) := by
    refine (h.mapStatements hf).not_isSignature_constraintName
      ((h.mapStatements hf).mem_constraints.mpr ?_)
    rw [hf.kind, allStatements, Program.mapStatements, ← List.map_append]
    exact ⟨List.mem_map_of_mem hs, hkind⟩
  rcases h.isSignature_or_constraintName hx with hx | ⟨s, hs, hskind, rfl⟩ <;>
    rcases h.isSignature_or_constraintName hy with hy | ⟨t, ht, htkind, rfl⟩
  · rwa [constraintNames_of_isSignature h hx, constraintNames_of_isSignature h hy] at hsame
  · rw [constraintNames_of_isSignature h hx,
      constraintNames_constraintName h hf hplain ht htkind] at hsame
    exact absurd (hsame ▸ hx) (hfresh ht htkind)
  · rw [constraintNames_of_isSignature h hy,
      constraintNames_constraintName h hf hplain hs hskind] at hsame
    exact absurd (hsame ▸ hy) (hfresh hs hskind)
  · rw [constraintNames_constraintName h hf hplain hs hskind,
      constraintNames_constraintName h hf hplain ht htkind] at hsame
    obtain ⟨lead, hlead⟩ := exists_lead_of_constraintName p.path (f s)
    obtain ⟨lead', hlead'⟩ := exists_lead_of_constraintName p.path (f t)
    rw [hlead, hlead', hf.identity, hf.identity] at hsame
    rw [h.eq_of_append_identity hs hskind ht htkind hsame]

end Names

/-- In the definition graph, decorations rename constraints of included files. -/
theorem Lists.definitionGraph_mapStatements (h : p.Lists source decorate)
    (hf : Statement.Decorates f) (hplain : ∀ s ∈ p.allStatements, s.qualifier = "") :
    (p.mapStatements f).definitionGraph = p.definitionGraph.renamed (p.constraintNames f) := by
  rw [definitionGraph, allStatements, Program.mapStatements, ← List.map_append]
  refine DefinitionGraph.build_map hf fun s hs => ⟨fun hkind => ?_, fun q hq => ?_, fun hkind => ?_⟩
  · exact constraintNames_constraintName h hf hplain hs hkind
  · exact constraintNames_of_isSignature h ((h.classified_of_mem hs).symbols q hq)
  · exact constraintNames_of_isSignature h ((h.classified_of_mem hs).declared (.inr hkind))

/-- Constraints of included files get the names that the steps display them with. All other names
stay, and in the definition graph no two names become one. -/
structure RenamesIncluded (p : Program) (steps : List Decoration)
    (rename : String → String) : Prop where
  included : ∀ s ∈ p.external, s.kind = .constraint →
    rename s.identity = (p.decorated steps s).displayName
  others : ∀ x, (∀ s ∈ p.external, s.kind = .constraint → s.identity ≠ x) → rename x = x
  apart : ∀ x y, p.definitionGraph.Mentions x → p.definitionGraph.Mentions y →
    rename x = rename y → x = y

/-- A program is another one with decorations: statements have qualifiers and source texts by the
steps, where they had none, and everything else is the same, but for the names of constraints of
included files in the definition graph. -/
structure DecoratedBy (q p : Program) (steps : List Decoration) : Prop where
  undecorated : ∀ s ∈ p.allStatements, s.qualifier = "" ∧ s.source = none
  statements : q.statements = p.statements.map (p.decorated steps)
  external : q.external = p.external.map (p.decorated steps)
  path : q.path = p.path
  contentHash : q.contentHash = p.contentHash
  symbols : q.symbols = p.symbols
  vars : q.vars = p.vars
  directives : q.directives = p.directives
  diagnostics : q.diagnostics = p.diagnostics
  sources : q.sources = p.sources
  labels : q.allStatements.map Statement.label = p.allStatements.map Statement.label
  statementGraph : q.statementGraph = p.statementGraph
  statementDot : q.statementGraph.toDot = p.statementGraph.toDot
  definitionGraph : ∃ rename, p.RenamesIncluded steps rename ∧
    q.definitionGraph = p.definitionGraph.renamed rename

/-- Steps of qualifying and of attaching source texts decorate a program, whatever their number and
order: qualifiers are those of the last source root, and source texts are there if they were
attached at all. -/
theorem decoratedBy_foldl_decorateBy (h : ofSource source config = .ok p)
    (steps : List Decoration) : (steps.foldl decorateBy p).DecoratedBy p steps := by
  obtain ⟨_, hlists⟩ := exists_lists_of_ofSource h
  have hundecorated (s : Statement) (hs : s ∈ p.allStatements) := undecorated_of_ofSource h hs
  have hplain (s : Statement) (hs : s ∈ p.allStatements) : s.qualifier = "" := (hundecorated s hs).1
  have hf := decorates_decorated p steps
  have hall : (p.mapStatements (p.decorated steps)).allStatements =
      p.allStatements.map (p.decorated steps) := List.map_append.symm
  have hgraph : (p.mapStatements (p.decorated steps)).statementGraph = p.statementGraph := by
    rw [statementGraph, hall, StatementGraph.build_map hf, statementGraph]
  rw [foldl_decorateBy]
  refine ⟨hundecorated, rfl, rfl, rfl, rfl, rfl, rfl, rfl, rfl, rfl, ?_, hgraph, by rw [hgraph],
    p.constraintNames (p.decorated steps), ⟨?_, ?_, ?_⟩, ?_⟩
  · rw [hall, List.map_map]
    refine List.map_congr_left fun s _ => ?_
    exact hf.label s
  · exact fun s hs hkind => constraintNames_of_external hlists hs hkind
  · exact fun x hx => constraintNames_of_forall_ne hx
  · exact fun x y hx hy hsame => constraintNames_injOn hlists hf hplain hx hy hsame
  · exact hlists.definitionGraph_mapStatements hf hplain

/-- Constraints of a file and of a file that it includes, with a comment in front of the second one.
They are qualified from two source roots, and their texts are attached in between. -/
theorem decoratedBy_foldl_decorateBy_of_included :
    ∃ source p q, ofSource source {} = .ok p ∧
      [.qualify ⟨"src"⟩, .attachSource, .qualify ⟨"lib"⟩].foldl decorateBy p = q ∧
      q.DecoratedBy p [.qualify ⟨"src"⟩, .attachSource, .qualify ⟨"lib"⟩] ∧
      q.allStatements.map (fun s => (s.displayName, s.source)) =
        [("p.Constraint#0", some ":- a."), ("d.e.Constraint#1", some ":- c.")] ∧
      (p.definitionGraph.names .constraints).toList = ["Constraint#0", "Constraint#1"] ∧
      (q.definitionGraph.names .constraints).toList = ["Constraint#0", "d.e.Constraint#1"] := by
  have hshown : (parseItems ⟨"p.lp"⟩ ":- a.").toOption.map (fun own =>
      (parseItems ⟨"lib/d/e.lp"⟩ "% c\n:- c.").toOption.map fun included =>
        (ofSource ⟨⟨"p.lp"⟩, statementsOf own ++ statementsOf included,
            [⟨⟨"p.lp"⟩, [":- a."], ""⟩, ⟨⟨"lib/d/e.lp"⟩, ["% c", ":- c."], ""⟩]⟩
              {}).toOption.map fun p =>
          let q := [.qualify ⟨"src"⟩, .attachSource, .qualify ⟨"lib"⟩].foldl decorateBy p
          decide (q.allStatements.map (fun s => (s.displayName, s.source)) =
              [("p.Constraint#0", some ":- a."), ("d.e.Constraint#1", some ":- c.")] ∧
            (p.definitionGraph.names .constraints).toList = ["Constraint#0", "Constraint#1"] ∧
            (q.definitionGraph.names .constraints).toList = ["Constraint#0", "d.e.Constraint#1"])) =
      some (some (some true)) := by
    decide +kernel
  obtain ⟨own, -, hincluded⟩ := exists_ok_of_toOption hshown
  obtain ⟨included, -, hprogram⟩ := exists_ok_of_toOption hincluded
  obtain ⟨p, hp, hshown⟩ := exists_ok_of_toOption hprogram
  exact ⟨_, p, _, hp, rfl, decoratedBy_foldl_decorateBy hp _, of_decide_eq_true hshown⟩

end Program
end AspAtlas
