import AspAtlas.Proofs.Node.Items
import AspAtlas.Statement.Classification
/-!
The search for the occurrences of a statement. Every part of it takes back the steps that it puts on
the way, so that an atom is judged by the kinds and fields that are passed down to it; the sets that
are left are the occurrences in pre-order, each with its usage.
-/
namespace AspAtlas

/-- What the way from a statement to a node has passed. -/
structure Trail where
  head : Bool := false
  conditional : Bool := false
  condition : Bool := false
deriving DecidableEq, Repr

namespace Trail

/-- The way on through a node. -/
def enterKind (t : Trail) (kind : NodeKind) : Trail :=
  { t with conditional := t.conditional || kind == .conditionalLiteral }

/-- The way on through a field. -/
def enterField (t : Trail) (field : Field) : Trail :=
  { t with head := t.head || field == .head, condition := t.condition || field == .condition }

/-- How an atom at the end of the way is used. -/
def usage (t : Trail) : Usage :=
  if t.head && !(t.conditional && t.condition) then .defined else .consumed

/-- What the steps of a way have passed. -/
def ofSteps (steps : List TraceStep) : Trail where
  head := steps.contains (.field .head)
  conditional := steps.contains (.kind .conditionalLiteral)
  condition := steps.contains (.field .condition)

theorem ofSteps_kind (kind : NodeKind) (steps : List TraceStep) :
    ofSteps (.kind kind :: steps) = (ofSteps steps).enterKind kind := by
  simp [ofSteps, enterKind, Bool.or_comm, eq_comm, Bool.beq_eq_decide_eq]

theorem ofSteps_field (field : Field) (steps : List TraceStep) :
    ofSteps (.field field :: steps) = (ofSteps steps).enterField field := by
  simp [ofSteps, enterField, Bool.or_comm, eq_comm, Bool.beq_eq_decide_eq]

theorem ofSteps_sequence (steps : List TraceStep) :
    ofSteps (.sequence :: steps) = ofSteps steps := by
  simp [ofSteps]

end Trail

namespace Node

/-- The atoms of a node with their usage, from those of its children; no atom is looked for inside
another one. -/
def atomStep (n : Node) (below : Children (Trail → List (Usage × Node))) (trail : Trail) :
    List (Usage × Node) :=
  if n.isAtom then [((trail.enterKind n.kind).usage, n)]
  else
    (Children.carried n.kind below).flatMap fun e =>
      e.2.toList.flatMap fun atoms => atoms ((trail.enterKind n.kind).enterField e.1)

/-- The atoms below a node with their usage, in pre-order. -/
def atoms (n : Node) : List (Usage × Node) := n.fold atomStep {}

end Node

namespace SymbolRegistry

/-- The occurrences at some atoms with their usage. -/
def resolved (r : SymbolRegistry) (atoms : List (Usage × Node)) : List (Usage × Symbol) :=
  atoms.filterMap fun (usage, atom) => (r.resolve? atom).map fun s => (usage, s)

/-- The predicate occurrences below a node with their usage, in source order. -/
def usages (r : SymbolRegistry) (n : Node) : List (Usage × Symbol) := r.resolved n.atoms

end SymbolRegistry

/-- The occurrences with some more behind them. -/
def SymbolSets.addAll (sets : SymbolSets) (used : List (Usage × Symbol)) : SymbolSets :=
  used.foldl (fun sets x => sets.add x.1 x.2) sets

theorem SymbolSets.addAll_append (sets : SymbolSets) (xs ys : List (Usage × Symbol)) :
    sets.addAll (xs ++ ys) = (sets.addAll xs).addAll ys :=
  List.foldl_append

theorem SymbolSets.addAll_eq (sets : SymbolSets) (used : List (Usage × Symbol)) :
    sets.addAll used =
      ⟨sets.defines ++ used.filterMap fun x => if x.1 = .defined then some x.2 else none,
        sets.dependsOn ++ used.filterMap fun x => if x.1 = .consumed then some x.2 else none⟩ := by
  induction used generalizing sets with
  | nil => simp [addAll]
  | cons x rest ih =>
    obtain ⟨usage, s⟩ := x
    have hstep : sets.addAll ((usage, s) :: rest) = (sets.add usage s).addAll rest := rfl
    rw [hstep, ih]
    cases usage <;> simp [add]

namespace Search

/-- A part of a search leaves the way as it was, and takes in what is found at the end of it. -/
def Finds (part : Search → Search) (found : List TraceStep → List (Usage × Symbol)) : Prop :=
  ∀ s, part s = ⟨s.trace, s.found.addAll (found s.trace)⟩

/-- A step on the way is there for the part inside, and no longer behind it. -/
theorem Finds.inside {part : Search → Search} {f : List TraceStep → List (Usage × Symbol)}
    (h : Finds part f) (step : TraceStep) :
    Finds (Search.inside step part) fun steps => f (step :: steps) := by
  intro s
  rw [Search.inside, h]
  rfl

/-- Parts one after another start from the same way. -/
theorem Finds.foldl {α : Type} {xs : List α} {part : α → Search → Search}
    {f : α → List TraceStep → List (Usage × Symbol)} (h : ∀ x ∈ xs, Finds (part x) (f x)) :
    Finds (fun s => xs.foldl (fun s x => part x s) s) fun steps => xs.flatMap
      fun x => f x steps := by
  induction xs with
  | nil => exact fun s => rfl
  | cons x rest ih =>
    obtain ⟨hx, hrest⟩ := List.forall_mem_cons.mp h
    intro s
    simp only [List.foldl_cons, List.flatMap_cons, SymbolSets.addAll_append, hx s]
    exact ih hrest _

/-- Whether a field holds one item or a sequence makes no difference to what is found below it. -/
theorem Finds.searchChild {α : Type} {c : Child α} {part : α → Search → Search}
    {f : α → Trail → List (Usage × Symbol)}
    (h : ∀ x ∈ c.toList, Finds (part x) fun steps => f x (.ofSteps steps)) :
    Finds (Search.searchChild (c.map part)) fun steps =>
      c.toList.flatMap fun x => f x (.ofSteps steps) := by
  cases c with
  | node item =>
    have hitem := h item (List.mem_singleton_self item)
    simpa only [Child.map, Search.searchChild, Child.toList, List.flatMap_singleton] using hitem
  | sequence items =>
    have hitems := (Finds.foldl h).inside .sequence
    simp only [Trail.ofSteps_sequence, Child.toList] at hitems
    simpa only [Child.map, Search.searchChild, List.foldl_map, Child.toList] using hitems

end Search

namespace SymbolRegistry

variable (r : SymbolRegistry)

/-- The occurrences at an atom, or below the items of a node. -/
theorem resolved_atomStep (n : Node) (t : Trail) :
    r.resolved (n.fold Node.atomStep t) =
      if n.isAtom then r.resolved [((t.enterKind n.kind).usage, n)]
      else n.children.flatMap fun e => e.2.toList.flatMap fun m =>
        r.resolved (m.fold Node.atomStep ((t.enterKind n.kind).enterField e.1)) := by
  rw [Node.fold_eq, Node.atomStep, Children.carried_mapItems]
  split
  · rfl
  · simp only [resolved, Children.mapItems, List.flatMap_map, Child.toList_map,
      List.filterMap_flatMap]
    rfl

/-- An atom is taken in if it can be looked up. -/
theorem finds_atom (n : Node) :
    Search.Finds (fun s =>
        match r.resolve? n with
        | some symbol => s.note symbol
        | none => s)
      fun steps => r.resolved [((Trail.ofSteps steps).usage, n)] := by
  intro s
  cases h : r.resolve? n with
  | none => simp [resolved, h, SymbolSets.addAll]
  | some symbol =>
    simp only [resolved, h, List.filterMap_cons, Option.map_some]
    rfl

/-- A search of a tree ends on the way that it started from, with the occurrences below the tree
taken in one after another. -/
theorem search_finds (n : Node) : Search.Finds (r.search n) fun steps =>
    r.resolved (n.fold Node.atomStep (.ofSteps steps)) := by
  induction n using Node.induction_fields with
  | step n ih =>
    have hbelow (steps : List TraceStep) := r.resolved_atomStep n (.ofSteps steps)
    simp only [← Trail.ofSteps_kind, ← Trail.ofSteps_field] at hbelow
    rw [search, Node.fold_eq, searchStep, Children.carried_mapItems]
    simp only [hbelow]
    refine Search.Finds.inside (f := fun steps =>
      if n.isAtom then r.resolved [((Trail.ofSteps steps).usage, n)]
      else n.children.flatMap fun e => e.2.toList.flatMap fun m =>
        r.resolved (m.fold Node.atomStep (.ofSteps (.field e.1 :: steps)))) ?_ (.kind n.kind)
    split
    · exact r.finds_atom n
    · simp only [Children.mapItems, List.foldl_map]
      refine Search.Finds.foldl fun e he => ?_
      have hchild : Search.Finds (Search.searchChild (e.2.map (Node.fold r.searchStep)))
          fun steps =>
          e.2.toList.flatMap fun m => r.resolved (m.fold Node.atomStep (.ofSteps steps)) :=
        Search.Finds.searchChild (f := fun m t => r.resolved (m.fold Node.atomStep t)) fun m hm =>
          ih e (Node.mem_fields_of_mem_children he) m hm
      exact hchild.inside (.field e.1)

/-- The search of a statement leaves no steps behind, and separates its occurrences by usage. -/
theorem search_eq (n : Node) : r.search n {} =
    ⟨[], (r.usages n).filterMap fun x => if x.1 = .defined then some x.2 else none,
      (r.usages n).filterMap fun x => if x.1 = .consumed then some x.2 else none⟩ := by
  rw [r.search_finds n, SymbolSets.addAll_eq]
  rfl

theorem collect_eq (n : Node) : r.collect n =
    ⟨(r.usages n).filterMap fun x => if x.1 = .defined then some x.2 else none,
      (r.usages n).filterMap fun x => if x.1 = .consumed then some x.2 else none⟩ := by
  rw [collect, search_eq]

end SymbolRegistry
end AspAtlas
