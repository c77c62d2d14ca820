import AspAtlas.Proofs.Surface.Nesting
import AspAtlas.Proofs.Symbol.Occurrences
import AspAtlas.Proofs.Symbol.Totals
/-!
Source order in a program that was read: its trees are nested, the trees and the occurrences of a
file stand one behind the other, and merging keeps the place of the first occurrence of a signature.
-/
namespace AspAtlas

theorem Position.compare_eq_lt {p q : Position} : compare p q = .lt ↔ p < q := by
  have hlex : compare p q = (compare p.line q.line).then (compare p.column q.column) := rfl
  rw [hlex, Ordering.then_eq_lt, Nat.compare_eq_lt, Nat.compare_eq_eq, Nat.compare_eq_lt]
  rfl

/-- In one file, what begins later is not located before. -/
theorem Location.compare_ne_lt {a b : Location} (hfile : a.file = b.file) (h : a.begin < b.begin) :
    compare b a ≠ .lt := by
  have hlex : compare b a =
      (compare b.file a.file).then ((compare b.begin a.begin).then (compare b.stop a.stop)) := rfl
  have hgt : compare b.begin a.begin = .gt :=
    Std.OrientedCmp.gt_iff_lt.mpr (Position.compare_eq_lt.mpr h)
  have hpath : compare b.file b.file = .eq := Std.ReflCmp.compare_self
  rw [hlex, hfile, hpath, hgt]
  simp

namespace SymbolRegistry

/-- Occurrences that stand in order are merged to the place of the first of them. -/
theorem location_mergeAll {symbols : List Symbol}
    (h : symbols.Pairwise fun s t => compare t.location s.location ≠ .lt) :
    (Symbol.mergeAll symbols).map (·.location) = symbols.head?.map (·.location) := by
  cases symbols with
  | nil => rfl
  | cons first rest =>
    obtain ⟨hlater, -⟩ := List.pairwise_cons.mp h
    have hkept : (rest.foldl Symbol.merge first).location = first.location := by
      apply List.foldlRecOn (motive := fun entry : Symbol => entry.location = first.location)
      · rfl
      · intro entry hentry s hs
        rw [Symbol.location_merge, hentry, if_neg (hlater s hs)]
    exact congrArg some hkept

/-- The entry of a signature is located at the first of the occurrences that have it. -/
theorem location_get?_ofList {symbols : List Symbol}
    (h : symbols.Pairwise fun s t => compare t.location s.location ≠ .lt) (signature : String) :
    ((ofList symbols).get? signature).map (·.location) =
      (symbols.find? fun s => s.signature == signature).map (·.location) := by
  rw [get?_ofList, location_mergeAll (h.filter _), List.head?_filter]

end SymbolRegistry

variable {r : ProgramReader} {root : Path} {text : String} {source : ParsedSource}

/-- The statements of each file that was read are nested trees, one behind the other. -/
theorem nested_of_readText (h : r.readText root text = .ok source) {f : SourceFile}
    (hf : f ∈ source.files) : ∃ lo hi, Surface.Row (Surface.Placed f.path) lo hi
      (source.nodes.filter fun n => n.location.isIn f.path) := by
  obtain ⟨_, _, hspliced⟩ := ProgramReader.exists_spliced h
  obtain ⟨t, items, -, -, hparse, hnodes, -⟩ := hspliced.statements f hf
  rw [hnodes]
  exact row_of_parseItems hparse

/-- In a program that was read, every tree is nested in one of the files, with all that a walk over
it meets. The trees of a file stand one behind the other, and so do the occurrences in its registry;
an entry of the registry is located at the first occurrence of its signature. -/
theorem readText_in_source_order (h : r.readText root text = .ok source)
    (directives : DirectiveIndex) (directiveName : String) :
    (∀ n ∈ source.nodes, ∃ f ∈ source.files, n.Nested f.path ∧
      ∀ m ∈ n.visit fun _ => true, m.Nested f.path ∧ n.location.Holds m.location) ∧
    ∀ f ∈ source.files,
      let own := source.nodes.filter fun n => n.location.isIn f.path
      let registry := SymbolRegistry.extract source.nodes f.path directives directiveName
      own.Pairwise (fun a b => a.location.Before b.location) ∧
        registry.occurrences.toList.Pairwise (fun s t => s.location.Before t.location) ∧
        (∀ s ∈ registry.occurrences.toList, s.location.file = f.path) ∧
        ∀ signature, (registry.get? signature).map (·.location) =
          (registry.occurrences.toList.find? fun s => s.signature == signature).map
          (·.location) := by
  obtain ⟨_, _, hspliced⟩ := ProgramReader.exists_spliced h
  constructor
  · intro n hn
    obtain ⟨f, hf, hfile⟩ := hspliced.located n hn
    obtain ⟨lo, hi, hrow⟩ := nested_of_readText h hf
    have hown : n ∈ source.nodes.filter fun n => n.location.isIn f.path :=
      List.mem_filter.mpr ⟨hn, by simp [Location.isIn, hfile, Path.beq_iff]⟩
    have hnested := (hrow.of_mem (Surface.placed_spanned f.path) hown).2
    exact ⟨f, hf, hnested, fun m hm => hnested.of_mem_visit hm⟩
  · intro f hf own registry
    obtain ⟨lo, hi, htrees⟩ := nested_of_readText h hf
    obtain ⟨_, _, hatoms⟩ := SymbolRegistry.row_of_readText h hf
    have hregistry : registry = SymbolRegistry.ofList
        (own.flatMap (SymbolRegistry.contribution directives directiveName)) :=
      SymbolRegistry.extract_eq source.nodes f.path
    have hoccurrences : registry.occurrences.toList =
        own.flatMap (SymbolRegistry.contribution directives directiveName) := by
      rw [hregistry, SymbolRegistry.occurrences_ofList]
    have hapart := SymbolRegistry.contributions_apart directives directiveName hatoms
    have hfile : ∀ s ∈ own.flatMap (SymbolRegistry.contribution directives directiveName),
        s.location.file = f.path := fun s hs =>
      SymbolRegistry.file_of_mem_contributions h hf hs
    rw [hoccurrences, hregistry]
    refine ⟨htrees.pairwise_apart (Surface.placed_spanned f.path), hapart, hfile,
      fun signature => ?_⟩
    refine SymbolRegistry.location_get?_ofList (hapart.imp_of_mem fun hs ht hst => ?_) signature
    exact Location.compare_ne_lt ((hfile _ hs).trans (hfile _ ht).symm) hst.1

/-- A predicate of a choice that also stands in the body is located in the choice. -/
theorem readText_in_source_order_of_choice :
    ∃ source, (ProgramReader.mk (.ofFiles []) 100).readText ⟨"p.lp"⟩ "{ a(1) : b } :- b, a(1+2)." =
        .ok source ∧
      (source.nodes.all fun n => n.location.begin != n.location.stop) = true ∧
      ((SymbolRegistry.extract source.nodes ⟨"p.lp"⟩ {} "predicate").get? "a/1").map
        (·.location.begin) = some ⟨1, 3⟩ := by
  have htext : (parseItems ⟨"p.lp"⟩ "{ a(1) : b } :- b, a(1+2).").toOption.map (fun items =>
      (targetsOf items, (((statementsOf items).filter fun n => n.location.isIn ⟨"p.lp"⟩).flatMap
        (SymbolRegistry.contribution {} "predicate")).map
          fun s => (s.signature, s.location.begin))) =
      some ([], [("a/1", ⟨1, 3⟩), ("b/0", ⟨1, 10⟩), ("b/0", ⟨1, 17⟩), ("a/1", ⟨1, 20⟩)]) := by
    decide +kernel
  cases hparse : parseItems ⟨"p.lp"⟩ "{ a(1) : b } :- b, a(1+2)." with
  | error e => simp [hparse, Except.toOption] at htext
  | ok items =>
    simp only [hparse, Except.toOption, Option.map_some, Option.some.injEq, Prod.mk.injEq] at htext
    obtain ⟨hnone, hfound⟩ := htext
    have hread := ProgramReader.readText_of_targetsOf_eq_nil ⟨.ofFiles [], 100⟩ hparse hnone
    obtain ⟨hnested, hfiles⟩ := readText_in_source_order hread {} "predicate"
    refine ⟨_, hread, ?_, ?_⟩
    · refine List.all_eq_true.mpr fun n hn => ?_
      obtain ⟨f, -, hn, -⟩ := hnested n hn
      cases hn with
      | node hfile hproper => simpa using hproper.ne
    · obtain ⟨-, -, -, hlocation⟩ := hfiles _ (ProgramReader.root_mem_files hread)
      have hbegin := congrArg (Option.map Location.begin) (hlocation "a/1")
      rw [Option.map_map, Option.map_map] at hbegin
      have hlist : (SymbolRegistry.extract (statementsOf items) ⟨"p.lp"⟩
          {} "predicate").occurrences.toList =
          ((statementsOf items).filter fun n => n.location.isIn ⟨"p.lp"⟩).flatMap
            (SymbolRegistry.contribution {} "predicate") :=
        SymbolRegistry.occurrences_ofList _
      have hfind := congrArg (fun found => (found.find? fun x => x.1 == "a/1").map (·.2)) hfound
      simp only [List.find?_map, Option.map_map] at hfind
      exact (hbegin.trans (congrArg (fun l : List Symbol =>
        (l.find? fun s => s.signature == "a/1").map (·.location.begin)) hlist)).trans hfind

end AspAtlas
