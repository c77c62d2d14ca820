import AspAtlas.Proofs.Node.Routes
import AspAtlas.Proofs.Path.Components
import AspAtlas.Symbol.Registry
import Mathlib.Data.List.Induction
/-!
The occurrences of a registry and its index. The walk over a statement finds the atoms of predicates
that stand in no other one. The index leads every key to the last occurrence that has it, so that
looking an atom up is searching the list of all occurrences.
-/
namespace AspAtlas

/-- Whether a node is the atom of a predicate. -/
def Node.isPredicate (n : Node) : Bool := n.isAtom && n.predicate?.isSome

theorem Symbol.isSome_ofAtom? (n : Node) : (ofAtom? n).isSome = n.predicate?.isSome := by
  cases h : n.predicate? <;> simp [ofAtom?, h]

/-- The walk over a statement stops at the atoms of predicates. -/
theorem SymbolRegistry.occurrencesIn_eq_endsAt (n : Node) :
    occurrencesIn n = (n.endsAt Node.isPredicate).filterMap Symbol.ofAtom? := by
  induction n using Node.induction with
  | step n ih =>
    have hsome := Symbol.isSome_ofAtom? n
    rw [occurrencesIn, Node.visit_eq_items, Node.endsAt_eq, Node.isPredicate]
    cases hatom : n.isAtom with
    | false =>
      simp only [hatom, Bool.not_false, Bool.true_or, if_true, Bool.false_and, Bool.false_eq_true,
        if_false, List.filterMap_cons, List.filterMap_flatMap]
      exact List.flatMap_congr fun f hf => List.flatMap_congr fun m hm => ih f m hm
    | true =>
      cases hs : Symbol.ofAtom? n with
      | some s =>
        rw [hs] at hsome
        simp [hatom, hs, ← hsome]
      | none =>
        rw [hs] at hsome
        simp only [hatom, hs, ← hsome, Bool.not_true, Bool.false_or, Option.isNone_none, if_true,
          Bool.true_and, Option.isSome_none, Bool.false_eq_true, if_false, List.filterMap_cons,
          List.filterMap_flatMap]
        exact List.flatMap_congr fun f hf => List.flatMap_congr fun m hm => ih f m hm

theorem Position.compare_eq_iff {p q : Position} : compare p q = .eq ↔ p = q := by
  constructor
  · intro h
    have hlex : compareLex (compareOn Position.line) (compareOn Position.column) p q = .eq := h
    obtain ⟨hline, hcolumn⟩ := compareLex_eq_eq.mp hlex
    have hline : p.line = q.line := Std.LawfulEqCmp.eq_of_compare hline
    have hcolumn : p.column = q.column := Std.LawfulEqCmp.eq_of_compare hcolumn
    cases p
    cases q
    simp_all
  · rintro rfl
    exact Std.ReflCmp.compare_self

theorem Path.compare_eq_iff {p q : Path} : compare p q = .eq ↔ p.components = q.components := by
  have hcompare : compare p q = compare p.components q.components := rfl
  rw [hcompare]
  exact Std.LawfulEqCmp.compare_eq_iff_eq

/-- Keys lead to the same occurrence when the names and the places are the same; the spelling of the
file does not count. -/
theorem OccurrenceKey.compare_eq_iff {a b : OccurrenceKey} :
    compare a b = .eq ↔ a.location.begin = b.location.begin ∧ a.location.stop = b.location.stop ∧
      a.name = b.name ∧ a.location.file.components = b.location.file.components := by
  have hcompare : compare a b = order a b := rfl
  rw [hcompare, order, compareLex_eq_eq, compareLex_eq_eq, compareLex_eq_eq]
  simp only [compareOn, Position.compare_eq_iff, Path.compare_eq_iff,
    Std.LawfulEqCmp.compare_eq_iff_eq]

namespace SymbolRegistry

/-- The last of some occurrences that has a key. -/
def lastAt (symbols : List Symbol) (k : OccurrenceKey) : Option Symbol :=
  symbols.reverse.find? fun s => compare s.key k == .eq

theorem lastAt_append (symbols : List Symbol) (s : Symbol) (k : OccurrenceKey) :
    lastAt (symbols ++ [s]) k = if compare s.key k = .eq then some s else lastAt symbols k := by
  by_cases h : compare s.key k = .eq <;> simp [lastAt, h]

/-- A registry holds some occurrences, and its index leads every key to the last one that has it. -/
structure Indexes (r : SymbolRegistry) (symbols : List Symbol) : Prop where
  occurrences : r.occurrences.toList = symbols
  index : ∀ k, (r.byLocation[k]?.map fun i => symbols[i]?) = (lastAt symbols k).map some

theorem Indexes.empty : Indexes {} [] := by
  constructor
  · rfl
  · intro k
    simp [lastAt]

theorem Indexes.add {r : SymbolRegistry} {symbols : List Symbol} (h : r.Indexes symbols)
    (s : Symbol) : (r.add s).Indexes (symbols ++ [s]) := by
  have hsize : r.occurrences.size = symbols.length := by
    rw [← h.occurrences, Array.length_toList]
  constructor
  · simp [SymbolRegistry.add, h.occurrences]
  · intro k
    have hk := h.index k
    simp only [SymbolRegistry.add, Std.TreeMap.getElem?_insert, lastAt_append, hsize]
    by_cases hs : compare s.key k = .eq
    · simp [hs]
    · simp only [hs, if_false]
      cases hi : r.byLocation[k]? with
      | none => simpa [hi] using hk
      | some i =>
        cases hl : lastAt symbols k with
        | none => simp [hi, hl] at hk
        | some t =>
          simp only [hi, hl, Option.map_some, Option.some.injEq] at hk ⊢
          have hlt : i < symbols.length := (List.getElem?_eq_some_iff.mp hk).1
          rw [List.getElem?_append_left hlt]
          exact hk

theorem Indexes.foldl {r : SymbolRegistry} {symbols : List Symbol} (h : r.Indexes symbols)
    (more : List Symbol) : (more.foldl SymbolRegistry.add r).Indexes (symbols ++ more) := by
  induction more generalizing r symbols with
  | nil => simpa using h
  | cons s rest ih =>
    have hrest := ih (h.add s)
    simpa using hrest

theorem ofList_indexes (symbols : List Symbol) : (ofList symbols).Indexes symbols :=
  Indexes.empty.foldl symbols

theorem occurrences_ofList (symbols : List Symbol) :
    (ofList symbols).occurrences.toList = symbols :=
  (ofList_indexes symbols).occurrences

/-- Looking an atom up finds the last occurrence at its place with its name, or what the atom itself
says. -/
theorem resolve?_ofList (symbols : List Symbol) (atom : Node) :
    (ofList symbols).resolve? atom =
      (Symbol.ofAtom? atom).map fun fresh => (lastAt symbols fresh.key).getD fresh := by
  have h := ofList_indexes symbols
  simp only [resolve?]
  cases Symbol.ofAtom? atom with
  | none => rfl
  | some fresh =>
    have hk := h.index fresh.key
    cases hi : (ofList symbols).byLocation[fresh.key]? with
    | none =>
      have hl : lastAt symbols fresh.key = none := by
        rw [hi, Option.map_none, eq_comm] at hk
        exact Option.map_eq_none_iff.mp hk
      simp [hi, hl]
    | some i =>
      simp only [hi, Option.map_some] at hk
      obtain ⟨t, hl, ht⟩ := Option.map_eq_some_iff.mp hk.symm
      have hget : (ofList symbols).occurrences[i]? = some t := by
        rw [← Array.getElem?_toList, h.occurrences, ← ht]
      simp [hi, hl, Array.getD_eq_getD_getElem?, hget]

/-- Where no two occurrences have the same key, every one of them is found by its key. -/
theorem lastAt_of_mem {symbols : List Symbol} {s : Symbol} {k : OccurrenceKey}
    (hdistinct : symbols.Pairwise fun s t => compare s.key t.key ≠ .eq) (hs : s ∈ symbols)
    (hk : compare s.key k = .eq) : lastAt symbols k = some s := by
  induction symbols using List.reverseRecOn with
  | nil => simp at hs
  | append_singleton symbols t ih =>
    obtain ⟨hbefore, -, hlast⟩ := List.pairwise_append.mp hdistinct
    rw [lastAt_append]
    rcases List.mem_append.mp hs with hs | hs
    · have hne : compare t.key k ≠ .eq := by
        intro ht
        have hst := Std.TransCmp.eq_trans hk (Std.OrientedCmp.eq_symm ht)
        exact hlast s hs t (List.mem_singleton_self t) hst
      rw [if_neg hne]
      exact ih hbefore hs
    · have he : s = t := List.mem_singleton.mp hs
      subst he
      rw [if_pos hk]

theorem mem_of_lastAt {symbols : List Symbol} {k : OccurrenceKey} {s : Symbol}
    (h : lastAt symbols k = some s) : s ∈ symbols ∧ compare s.key k = .eq := by
  rw [lastAt] at h
  have hkey := List.find?_some h
  exact ⟨List.mem_reverse.mp (List.mem_of_find?_eq_some h), by simpa using hkey⟩

theorem lastAt_eq_none {symbols : List Symbol} {k : OccurrenceKey}
    (h : ∀ s ∈ symbols, compare s.key k ≠ .eq) : lastAt symbols k = none := by
  rw [lastAt, List.find?_eq_none]
  intro s hs
  simpa using h s (List.mem_reverse.mp hs)

end SymbolRegistry
end AspAtlas
