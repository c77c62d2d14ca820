import AspAtlas.Proofs.Program.Files
import AspAtlas.Proofs.Symbol.Totals
/-!
Looking atoms up in the registry of a file. What is found has the name of the atom, but not always
its arity: the index knows names and places only, and of several occurrences at one place it has the
last one. In a program that was read no two atoms share a place, and each is found as what it is.
-/
namespace AspAtlas

namespace Symbol

/-- A symbol is a single occurrence of a predicate, with these arguments. -/
structure IsOf (s : Symbol) (predicate : String × Nat) (arguments : List String) : Prop where
  name : s.name = predicate.1
  arity : s.arity = predicate.2
  signature : s.signature = signatureOf predicate.1 predicate.2
  arguments : s.arguments.entries = [(argumentList arguments, 1)]

/-- The occurrence at an atom has its name and its arguments. -/
theorem ofAtom?_of_predicate? {a : Node} {name : String} {arity : Nat}
    (h : a.predicate? = some (name, arity)) :
    ∃ location, ofAtom? a = some (occurrence name a.predicateArguments location none) := by
  rw [ofAtom?, h]
  exact ⟨_, rfl⟩

end Symbol

namespace SymbolRegistry

variable {nodes : List Node} {file : Path} {directives : DirectiveIndex} {directiveName : String}

/-- The last occurrence that a registry has with the name of an atom at its place has the arity and
the arguments of the atom; where it has none, the atom's own occurrence has that arity. -/
def Represents (r : SymbolRegistry) (own : Symbol) (arity : Nat) : Prop :=
  (∀ t, lastAt r.occurrences.toList own.key = some t → t.arity = arity ∧
    t.arguments = own.arguments) ∧ (lastAt r.occurrences.toList own.key = none → own.arity = arity)

/-- What an atom resolves to has the name of the atom and the signature of its own arity, and it is
the predicate of the atom where the registry represents it. -/
theorem resolve?_of_predicate? {a : Node} {name : String} {arity : Nat}
    (h : a.predicate? = some (name, arity)) :
    let registry := extract nodes file directives directiveName
    ∃ own s, Symbol.ofAtom? a = some own ∧ registry.resolve? a = some s ∧ s.name = name ∧
      s.signature = Symbol.signatureOf name s.arity ∧
      (s.IsOf (name, arity) a.predicateArguments ↔ registry.Represents own arity) := by
  intro registry
  obtain ⟨location, hown⟩ := Symbol.ofAtom?_of_predicate? h
  have hoccurrences : registry.occurrences.toList = _ := occurrences_ofList _
  have hresolve : registry.resolve? a = some
      ((lastAt registry.occurrences.toList
        (Symbol.occurrence name a.predicateArguments location none).key).getD
          (Symbol.occurrence name a.predicateArguments location none)) := by
    have hlooked : registry.resolve? a = _ := resolve?_ofList _ a
    rw [hlooked, hown, Option.map_some, hoccurrences]
  refine ⟨_, _, hown, hresolve, ?_⟩
  rw [Represents]
  cases hlast : lastAt registry.occurrences.toList
      (Symbol.occurrence name a.predicateArguments location none).key with
  | none =>
    refine ⟨rfl, rfl, ?_⟩
    constructor
    · intro hof
      refine ⟨?_, fun _ => hof.arity⟩
      rintro t ⟨⟩
    · rintro ⟨-, harity⟩
      have harity := harity rfl
      exact ⟨rfl, harity, congrArg (Symbol.signatureOf name) harity, rfl⟩
  | some t =>
    obtain ⟨hmem, hkey⟩ := mem_of_lastAt hlast
    have hname : t.name = name := (OccurrenceKey.compare_eq_iff.mp hkey).2.2.1
    have hregular : t.signature = Symbol.signatureOf t.name t.arity :=
      (isOccurrence_of_mem_extract hmem).regular
    rw [hname] at hregular
    refine ⟨hname, hregular, ?_⟩
    constructor
    · intro hof
      refine ⟨?_, by simp⟩
      rintro _ ⟨⟩
      exact ⟨hof.arity, OrderedMap.ext hof.arguments⟩
    · rintro ⟨hsame, -⟩
      obtain ⟨harity, harguments⟩ := hsame t rfl
      refine ⟨hname, harity, ?_, ?_⟩
      · rw [Option.getD_some, hregular, harity]
      · rw [Option.getD_some, harguments]
        rfl

/-- The atoms of a program that was read stand below no other atoms, and count their arguments. -/
theorem atom_of_readText {r : ProgramReader} {root : Path} {text : String} {source : ParsedSource}
    (h : r.readText root text = .ok source) {n a : Node} (hn : n ∈ source.nodes)
    (ha : a ∈ n.visit fun _ => true) (hatom : a.isAtom = true) :
    (∃ f ∈ source.files, n ∈ source.nodes.filter fun n => n.location.isIn f.path) ∧
      a ∈ n.topAtoms ∧ ∃ file, ∃ atom : Surface.Atom, a = atom.lower file := by
  obtain ⟨_, _, hspliced⟩ := ProgramReader.exists_spliced h
  obtain ⟨f, hf, hfile⟩ := hspliced.located n hn
  have hown : n ∈ source.nodes.filter fun n => n.location.isIn f.path :=
    List.mem_filter.mpr ⟨hn, by simp [Location.isIn, hfile, Path.beq_iff]⟩
  obtain ⟨_, _, hrow⟩ := row_of_readText h hf
  have hlowered {b : Node} (hb : b ∈ n.topAtoms) :
      ∃ file, ∃ atom : Surface.Atom, b = atom.lower file :=
    (hrow.of_mem Surface.atomIn_spanned (List.mem_flatMap.mpr ⟨n, hown, hb⟩)).2
  have htop : a ∈ n.topAtoms := by
    refine Node.mem_topAtoms_of_mem_visit (fun b hb => ?_) ha hatom
    obtain ⟨file, atom, rfl⟩ := hlowered hb
    exact atom.topAtoms_below
  exact ⟨⟨f, hf, hown⟩, htop, hlowered htop⟩

/-- Looking up an atom of any trees keeps its name, and keeps its arity and arguments
exactly where the registry represents it; every atom of a program that was read is
found with its own predicate. -/
theorem resolve?_keeps_predicate (nodes : List Node) (file : Path) (directives : DirectiveIndex)
    (directiveName : String) :
    let registry := extract nodes file directives directiveName
    (∀ a name arity, a.predicate? = some (name, arity) →
      ∃ own s, Symbol.ofAtom? a = some own ∧ registry.resolve? a = some s ∧ s.name = name ∧
        s.signature = Symbol.signatureOf name s.arity ∧
        (s.IsOf (name, arity) a.predicateArguments ↔ registry.Represents own arity)) ∧
      ∀ (r : ProgramReader) text source, r.readText file text = .ok source → source.nodes = nodes →
        ∀ n ∈ nodes, ∀ a ∈ n.visit fun _ => true, ∀ predicate, a.predicate? = some predicate →
          ∃ s, registry.resolve? a = some s ∧ s.IsOf predicate a.predicateArguments := by
  intro registry
  constructor
  · intro a name arity h
    exact resolve?_of_predicate? h
  · rintro r text source h rfl n hn a ha ⟨name, arity⟩ hpredicate
    have hatom : a.isAtom = true := by
      by_contra hne
      rw [Node.predicate?, if_neg hne] at hpredicate
      cases hpredicate
    obtain ⟨⟨f, hf, hown⟩, htop, _, atom, rfl⟩ := atom_of_readText h hn ha hatom
    obtain ⟨fresh, documentation, hfresh, hresolve⟩ :=
      faithful_of_readText h directives directiveName hf hown _ htop
    refine ⟨_, hresolve, ?_⟩
    obtain ⟨location, hsymbol⟩ := Symbol.ofAtom?_of_predicate? hpredicate
    rw [hfresh, Option.some.injEq] at hsymbol
    subst hsymbol
    rw [atom.predicate?_lower, Option.some.injEq, Prod.mk.injEq] at hpredicate
    obtain ⟨rfl, rfl⟩ := hpredicate
    exact ⟨rfl, rfl, rfl, rfl⟩

/-- In a rule with a predicate of the same name in head and body, both atoms keep their arity. -/
theorem resolve?_keeps_predicate_of_rule :
    ∃ source, (ProgramReader.mk (.ofFiles []) 100).readText ⟨"p.lp"⟩ "p(1) :- p." = .ok source ∧
      ∃ n ∈ source.nodes, ∃ a ∈ n.visit fun _ => true, a.predicate? = some ("p", 1) ∧
        ∃ s, (extract source.nodes ⟨"p.lp"⟩ {} "predicate").resolve? a = some s ∧
          s.signature = "p/1" := by
  have htext : (parseItems ⟨"p.lp"⟩ "p(1) :- p.").toOption.map (fun items =>
      (targetsOf items, ((statementsOf items).flatMap fun n => n.visit fun _ => true).filterMap
        Node.predicate?)) = some ([], [("p", 1), ("p", 0)]) := by
    decide +kernel
  cases hparse : parseItems ⟨"p.lp"⟩ "p(1) :- p." with
  | error e => simp [hparse, Except.toOption] at htext
  | ok items =>
    simp only [hparse, Except.toOption, Option.map_some, Option.some.injEq, Prod.mk.injEq] at htext
    obtain ⟨hnone, hpredicates⟩ := htext
    have hread := ProgramReader.readText_of_targetsOf_eq_nil ⟨.ofFiles [], 100⟩ hparse hnone
    have hmem : ("p", 1) ∈ ((statementsOf items).flatMap fun n => n.visit fun _ => true).filterMap
        Node.predicate? := by
      rw [hpredicates]
      exact List.mem_cons_self
    obtain ⟨a, ha, hpredicate⟩ := List.mem_filterMap.mp hmem
    obtain ⟨n, hn, ha⟩ := List.mem_flatMap.mp ha
    have hkeeps := (resolve?_keeps_predicate (statementsOf items) ⟨"p.lp"⟩ {} "predicate").2
    obtain ⟨s, hs, hof⟩ := hkeeps _ _ _ hread rfl n hn a ha _ hpredicate
    refine ⟨_, hread, n, hn, a, ha, hpredicate, s, hs, ?_⟩
    rw [hof.signature]
    rfl

/-- Of two atoms at one place, with the same name and different arguments, the first one is looked
up as the second. -/
theorem shared_place_changes_arity :
    let first := Node.mention "p" ["1"] ⟨⟨"p.lp"⟩, ⟨1, 1⟩, ⟨1, 5⟩⟩
    let second := Node.mention "p" [] ⟨⟨"p.lp"⟩, ⟨1, 1⟩, ⟨1, 5⟩⟩
    first.predicate? = some ("p", 1) ∧
      ((extract [first, second] ⟨"p.lp"⟩ {} "predicate").resolve? first).map (·.signature) =
        some "p/0" := by
  intro first second
  have hlooked : (extract [first, second] ⟨"p.lp"⟩ {} "predicate").resolve? first = _ :=
    resolve?_ofList _ first
  rw [hlooked]
  decide +kernel

end SymbolRegistry
end AspAtlas
