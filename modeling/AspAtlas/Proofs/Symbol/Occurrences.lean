import AspAtlas.Proofs.Reader.Outcome
import AspAtlas.Proofs.Statement.Usage
import AspAtlas.Proofs.Surface.Atoms
import AspAtlas.Proofs.Symbol.Registry
/-!
Two walks find the predicates of a statement: the registry lists its occurrences, and the classifier
sorts its atoms by usage. In a program that was read, both find the same.
-/
namespace AspAtlas

/-- A list has the members of two others, and no more, each in their order. -/
inductive Interleaves {α : Type} : List α → List α → List α → Prop
  | nil : Interleaves [] [] []
  | left {x : α} {xs ys zs : List α} (h : Interleaves xs ys zs) :
      Interleaves (x :: xs) ys (x :: zs)
  | right {y : α} {xs ys zs : List α} (h : Interleaves xs ys zs) :
      Interleaves xs (y :: ys) (y :: zs)

namespace SymbolRegistry

/-- The registry walk finds the atoms that the routes lead to, when each of them is a predicate. -/
theorem occurrencesIn_eq {n : Node} (h : ∀ a ∈ n.topAtoms, (Symbol.ofAtom? a).isSome = true) :
    occurrencesIn n = n.topAtoms.filterMap Symbol.ofAtom? := by
  induction n using Node.induction with
  | step n ih =>
    rw [occurrencesIn, Node.visit_eq_items]
    by_cases hatom : n.isAtom = true
    · have hself : n.topAtoms = [n] := by rw [Node.topAtoms_eq, if_pos hatom]
      have hsome := h n (by simp [hself])
      obtain ⟨s, hs⟩ := Option.isSome_iff_exists.mp hsome
      simp [hself, hatom, hs]
    · have hbelow : n.topAtoms =
          n.kind.childFields.flatMap fun f => (n.items f).flatMap Node.topAtoms := by
        rw [Node.topAtoms_eq, if_neg hatom]
      rw [hbelow] at h ⊢
      simp only [hatom, Bool.not_false, Bool.true_or, if_true, Bool.false_eq_true, if_false,
        List.filterMap_cons, List.filterMap_flatMap]
      refine List.flatMap_congr fun f hf => ?_
      refine List.flatMap_congr fun m hm => ?_
      apply ih f m hm
      intro a ha
      exact h a (List.mem_flatMap.mpr ⟨f, hf, List.mem_flatMap.mpr ⟨m, hm, ha⟩⟩)

theorem usages_interleave (found : List (Usage × Symbol)) :
    Interleaves (found.filterMap fun x => if x.1 = .defined then some x.2 else none)
      (found.filterMap fun x => if x.1 = .consumed then some x.2 else none)
      (found.map Prod.snd) := by
  induction found with
  | nil => exact .nil
  | cons x rest ih =>
    obtain ⟨usage, s⟩ := x
    cases usage with
    | defined => exact .left ih
    | consumed => exact .right ih

/-- Every atom that can be looked up is in one of the two sets of a statement. -/
theorem collect_interleaves (r : SymbolRegistry) (n : Node) :
    Interleaves (r.collect n).defines (r.collect n).dependsOn
      (n.topAtoms.filterMap r.resolve?) := by
  have hall : (r.usages n).map Prod.snd = n.topAtoms.filterMap r.resolve? := by
    rw [usages, resolved, Node.atoms_eq_routes, Node.topAtoms, List.filterMap_map,
      List.filterMap_map, List.map_filterMap]
    refine List.filterMap_congr fun x _ => ?_
    cases h : r.resolve? x.2 <;> simp [h]
  rw [← hall, collect_eq]
  exact usages_interleave (r.usages n)

variable {directives : DirectiveIndex} {directiveName : String}

variable (directives directiveName) in
/-- What a statement adds to the registry of its file. -/
def contribution (n : Node) : List Symbol :=
  (occurrencesIn n).map (document directives directiveName)

theorem contribution_eq {n : Node} (h : ∀ a ∈ n.topAtoms, (Symbol.ofAtom? a).isSome = true) :
    contribution directives directiveName n =
      n.topAtoms.filterMap fun a => (Symbol.ofAtom? a).map (document directives directiveName) := by
  rw [contribution, occurrencesIn_eq h, List.map_filterMap]

/-- The contributions of some statements come from all their atoms. -/
theorem contributions_eq {nodes : List Node}
    (h : ∀ a ∈ nodes.flatMap Node.topAtoms, (Symbol.ofAtom? a).isSome = true) :
    nodes.flatMap (contribution directives directiveName) =
      (nodes.flatMap Node.topAtoms).filterMap fun a =>
        (Symbol.ofAtom? a).map (document directives directiveName) := by
  rw [List.filterMap_flatMap]
  refine List.flatMap_congr fun n hn => contribution_eq fun a ha => ?_
  exact h a (List.mem_flatMap.mpr ⟨n, hn, ha⟩)

section Placed

open Surface (Row AtomIn atomIn_spanned)

variable {lo hi : Position} {nodes : List Node}

theorem isSome_of_row {atoms : List Node} (h : Row AtomIn lo hi atoms) :
    ∀ a ∈ atoms, (Symbol.ofAtom? a).isSome = true := by
  intro a ha
  obtain ⟨-, file, atom, rfl⟩ := h.of_mem atomIn_spanned ha
  obtain ⟨arguments, hsymbol⟩ := @Surface.Atom.ofAtom?_lower file atom
  rw [hsymbol]
  rfl

/-- Atoms in a row make occurrences in a row. -/
theorem contributions_apart (directives : DirectiveIndex) (directiveName : String)
    (h : Row AtomIn lo hi (nodes.flatMap Node.topAtoms)) :
    (nodes.flatMap (contribution directives directiveName)).Pairwise fun s t =>
      s.location.Before t.location := by
  rw [contributions_eq (isSome_of_row h)]
  refine (h.pairwise_apart atomIn_spanned).filterMap _ fun a b hab s hs t ht => ?_
  obtain ⟨_, hfirst, rfl⟩ := Option.map_eq_some_iff.mp hs
  obtain ⟨_, hlater, rfl⟩ := Option.map_eq_some_iff.mp ht
  rw [Surface.atomSpan_eq hfirst, Surface.atomSpan_eq hlater] at hab
  exact hab

theorem contributions_pairwise (h : Row AtomIn lo hi (nodes.flatMap Node.topAtoms)) :
    (nodes.flatMap (contribution directives directiveName)).Pairwise fun s t =>
      s.location.begin < t.location.begin :=
  (contributions_apart directives directiveName h).imp And.left

/-- The registry of atoms in a row leads every one of them to its own occurrence. -/
theorem resolve?_of_row (h : Row AtomIn lo hi (nodes.flatMap Node.topAtoms)) {a : Node}
    (ha : a ∈ nodes.flatMap Node.topAtoms) :
    (ofList (nodes.flatMap (contribution directives directiveName))).resolve? a =
      (Symbol.ofAtom? a).map (document directives directiveName) := by
  obtain ⟨fresh, hfresh⟩ := Option.isSome_iff_exists.mp (isSome_of_row h a ha)
  have hmem : document directives directiveName fresh ∈
      nodes.flatMap (contribution directives directiveName) := by
    rw [contributions_eq (isSome_of_row h)]
    exact List.mem_filterMap.mpr ⟨a, ha, by simp [hfresh]⟩
  have hdistinct : (nodes.flatMap (contribution directives directiveName)).Pairwise fun s t =>
      compare s.key t.key ≠ .eq := by
    refine (contributions_pairwise h).imp fun hst he => ?_
    have hbegin := (OccurrenceKey.compare_eq_iff.mp he).1
    exact (hst.ne hbegin)
  have hkey : compare (document directives directiveName fresh).key fresh.key = .eq :=
    Std.ReflCmp.compare_self
  rw [resolve?_ofList, hfresh, Option.map_some, lastAt_of_mem hdistinct hmem hkey]
  rfl

/-- In the registry of atoms in a row, the atoms of a statement are what the statement adds. -/
theorem resolve?_topAtoms (h : Row AtomIn lo hi (nodes.flatMap Node.topAtoms)) {n : Node}
    (hn : n ∈ nodes) :
    n.topAtoms.map (ofList (nodes.flatMap (contribution directives directiveName))).resolve? =
      (contribution directives directiveName n).map some := by
  have hmem : ∀ a ∈ n.topAtoms, a ∈ nodes.flatMap Node.topAtoms := by
    intro a ha
    exact List.mem_flatMap.mpr ⟨n, hn, ha⟩
  have hsome : ∀ a ∈ n.topAtoms, (Symbol.ofAtom? a).isSome = true := by
    intro a ha
    exact isSome_of_row h a (hmem a ha)
  rw [contribution_eq hsome, List.map_filterMap_some_eq_filter_map_isSome, eq_comm]
  rw [List.filter_eq_self.mpr (by simpa using hsome)]
  refine List.map_congr_left fun a ha => ?_
  rw [resolve?_of_row h (hmem a ha)]

end Placed

theorem extract_eq (nodes : List Node) (file : Path) :
    extract nodes file directives directiveName =
      ofList ((nodes.filter fun n => n.location.isIn file).flatMap
        (contribution directives directiveName)) := rfl

section Read

variable {r : ProgramReader} {root : Path} {text : String} {source : ParsedSource}

/-- The statements of each file that was read have their atoms in a row. -/
theorem row_of_readText (h : r.readText root text = .ok source) {f : SourceFile}
    (hf : f ∈ source.files) : ∃ lo hi, Surface.Row Surface.AtomIn lo hi
      ((source.nodes.filter fun n => n.location.isIn f.path).flatMap Node.topAtoms) := by
  obtain ⟨_, _, hspliced⟩ := ProgramReader.exists_spliced h
  obtain ⟨t, items, -, -, hparse, hnodes, -⟩ := hspliced.statements f hf
  rw [hnodes]
  exact atoms_of_parseItems hparse

theorem row_of_root (h : r.readText root text = .ok source) :
    ∃ lo hi, Surface.Row Surface.AtomIn lo hi
      ((source.nodes.filter fun n => n.location.isIn root).flatMap Node.topAtoms) := by
  have hpath : (SourceFile.ofText root text).path = root := rfl
  obtain ⟨lo, hi, hrow⟩ := row_of_readText h (ProgramReader.root_mem_files h)
  rw [hpath] at hrow
  exact ⟨lo, hi, hrow⟩

/-- The occurrences of a file stand in that file. -/
theorem file_of_readText (h : r.readText root text = .ok source) {f : SourceFile}
    (hf : f ∈ source.files) {n a : Node}
    (hn : n ∈ source.nodes.filter fun n => n.location.isIn f.path)
    (ha : a ∈ n.topAtoms) {s : Symbol} (hs : Symbol.ofAtom? a = some s) :
    s.location.file = f.path := by
  obtain ⟨_, _, hspliced⟩ := ProgramReader.exists_spliced h
  obtain ⟨t, items, -, -, hparse, hnodes, -⟩ := hspliced.statements f hf
  have hsame := parseItems_relocate hparse f.path
  rw [hparse, Except.ok.injEq] at hsame
  rw [hnodes, hsame, statementsOf_relocate] at hn
  obtain ⟨m, -, rfl⟩ := List.mem_map.mp hn
  rw [Node.topAtoms_relocate] at ha
  obtain ⟨b, -, rfl⟩ := List.mem_map.mp ha
  rw [Symbol.ofAtom?_relocate] at hs
  obtain ⟨fresh, -, rfl⟩ := Option.map_eq_some_iff.mp hs
  rfl

/-- What the statements of a file add stands in that file. -/
theorem file_of_mem_contributions (h : r.readText root text = .ok source) {f : SourceFile}
    (hf : f ∈ source.files) {s : Symbol}
    (hs : s ∈ (source.nodes.filter fun n => n.location.isIn f.path).flatMap
      (contribution directives directiveName)) : s.location.file = f.path := by
  obtain ⟨_, _, hrow⟩ := row_of_readText h hf
  rw [contributions_eq (isSome_of_row hrow)] at hs
  obtain ⟨a, ha, hs⟩ := List.mem_filterMap.mp hs
  obtain ⟨n, hn, ha⟩ := List.mem_flatMap.mp ha
  obtain ⟨fresh, hfresh, rfl⟩ := Option.map_eq_some_iff.mp hs
  have hfile : fresh.location.file = f.path := file_of_readText h hf hn ha hfresh
  exact hfile

theorem file_of_contribution (h : r.readText root text = .ok source) {s : Symbol}
    (hs : s ∈ (source.nodes.filter fun n => n.location.isIn root).flatMap
      (contribution directives directiveName)) : s.location.file = root :=
  file_of_mem_contributions h (ProgramReader.root_mem_files h) hs

end Read

/-- In a program that was read, the registry of the root file and the classifier agree. The registry
has what the statements of that file add, one after another, each occurrence behind the one before;
and what a statement adds is, in order, what it defines and what it depends on, one occurrence for
every atom. -/
theorem extract_agrees_with_collect {r : ProgramReader} {root : Path} {text : String}
    {source : ParsedSource} (h : r.readText root text = .ok source) (directives : DirectiveIndex)
    (directiveName : String) :
    let own := source.nodes.filter fun n => n.location.isIn root
    let registry := extract source.nodes root directives directiveName
    registry.occurrences.toList = own.flatMap (contribution directives directiveName) ∧
      (registry.occurrences.toList.Pairwise fun s t => s.location.begin < t.location.begin) ∧
      ∀ n ∈ own,
        Interleaves (registry.collect n).defines (registry.collect n).dependsOn
          (contribution directives directiveName n) ∧
        ∀ found, n.Enumerates found →
          (found.map fun x => registry.resolve? x.2) =
            (contribution directives directiveName n).map some := by
  intro own registry
  obtain ⟨lo, hi, hrow⟩ := row_of_root h
  have hoccurrences : registry.occurrences.toList =
      own.flatMap (contribution directives directiveName) := occurrences_ofList _
  refine ⟨hoccurrences, ?_, fun n hn => ?_⟩
  · rw [hoccurrences]
    exact contributions_pairwise hrow
  · have hresolve : n.topAtoms.map registry.resolve? =
        (contribution directives directiveName n).map some := resolve?_topAtoms hrow hn
    constructor
    · have hcollect := collect_interleaves registry n
      have hfilter : n.topAtoms.filterMap registry.resolve? =
          contribution directives directiveName n := by
        have hmap : (n.topAtoms.map registry.resolve?).filterMap id =
            n.topAtoms.filterMap registry.resolve? := List.filterMap_map
        rw [← hmap, hresolve, List.filterMap_map]
        exact List.filterMap_some
      rwa [hfilter] at hcollect
    · intro found hfound
      rw [hfound.eq n.routes_enumerates, ← hresolve, Node.topAtoms, List.map_map]
      rfl

/-- A choice with a condition adds its atoms in the order of the text. -/
theorem extract_agrees_with_collect_of_choice :
    ∃ source, (ProgramReader.mk (.ofFiles []) 100).readText ⟨"p.lp"⟩ "{ a : b } :- c, not d." =
        .ok source ∧
      (extract source.nodes ⟨"p.lp"⟩ {} "predicate").occurrences.toList.map (·.name) =
        ["a", "b", "c", "d"] := by
  have htext : (parseItems ⟨"p.lp"⟩ "{ a : b } :- c, not d.").toOption.map (fun items =>
      (targetsOf items, ((statementsOf items).filter fun n => n.location.isIn ⟨"p.lp"⟩).flatMap
        fun n => (contribution {} "predicate" n).map (·.name))) =
          some ([], ["a", "b", "c", "d"]) := by
    decide +kernel
  cases hparse : parseItems ⟨"p.lp"⟩ "{ a : b } :- c, not d." with
  | error e => simp [hparse, Except.toOption] at htext
  | ok items =>
    simp only [hparse, Except.toOption, Option.map_some, Option.some.injEq, Prod.mk.injEq] at htext
    obtain ⟨hnone, hnames⟩ := htext
    have hread := ProgramReader.readText_of_targetsOf_eq_nil ⟨.ofFiles [], 100⟩ hparse hnone
    refine ⟨_, hread, ?_⟩
    rw [(extract_agrees_with_collect hread {} "predicate").1, List.map_flatMap]
    exact hnames

end SymbolRegistry
end AspAtlas
