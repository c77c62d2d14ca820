import AspAtlas.Proofs.Statement.Likeness
/-!
The signatures of a tree. Which predicates a statement defines and depends on is read off its tree
without places, and trees of one shape agree on it when the trees below them do.
-/
namespace AspAtlas

namespace Node

/-- The signature of the predicate at an atom. -/
def signature? (a : Node) : Option String := (Symbol.ofAtom? a).map Symbol.signature

/-- What a node mentions at the end of a way: the signatures below it, each with its usage. -/
def mentions (n : Node) (t : Trail) : List (Usage × Option String) :=
  (n.fold atomStep t).map fun x => (x.1, x.2.signature?)

variable {n m : Node} {t : Trail}

theorem mentions_eq : n.mentions t =
    if n.isAtom then [((t.enterKind n.kind).usage, n.signature?)]
    else n.kind.childFields.flatMap fun f =>
      (n.items f).flatMap fun k => k.mentions ((t.enterKind n.kind).enterField f) := by
  rw [mentions, fold_eq, atomStep]
  split
  · rfl
  · rw [Children.flatMap_carried n.kind _ (fun f (found : List (Trail → List (Usage × Node))) =>
      found.flatMap fun atoms => atoms ((t.enterKind n.kind).enterField f)) (by simp)]
    rw [List.map_flatMap]
    refine List.flatMap_congr fun f _ => ?_
    rw [items_mapItems, List.flatMap_map, List.map_flatMap]
    rfl

theorem mentions_atom (h : n.kind = .symbolicAtom) :
    n.mentions t = [((t.enterKind .symbolicAtom).usage, n.signature?)] := by
  rw [mentions_eq, if_pos (by simp [isAtom, h]), h]

/-- A tree without atoms mentions nothing. -/
theorem mentions_of_topAtoms (h : n.topAtoms = []) : n.mentions t = [] := by
  have hroutes : n.routes = [] := List.map_eq_nil_iff.mp h
  rw [mentions, fold_atomStep, hroutes]
  rfl

/-- What nodes in a row mention. -/
def mentionsOf (ns : List Node) (t : Trail) : List (Usage × Option String) :=
  ns.flatMap fun k => k.mentions t

@[simp] theorem mentionsOf_singleton : mentionsOf [n] = n.mentions := by
  funext t
  simp [mentionsOf]

theorem mentionsOf_map {α β : Type} {g : α → Node} {g' : β → Node} {xs : List α} {ys : List β}
    (h : List.Forall₂ (fun x y => (g x).mentions = (g' y).mentions) xs ys) :
    mentionsOf (xs.map g) = mentionsOf (ys.map g') := by
  funext t
  simp only [mentionsOf, List.flatMap_map]
  induction h with
  | nil => rfl
  | cons hxy _ ih => rw [List.flatMap_cons, List.flatMap_cons, hxy, ih]

/-- Nodes of one kind mention the same when what stands below them does, field by field. -/
theorem mentions_congr (hkind : n.kind = m.kind) (hatom : n.kind ≠ .symbolicAtom)
    (h : ∀ f ∈ n.kind.childFields, mentionsOf (n.items f) = mentionsOf (m.items f)) :
    n.mentions = m.mentions := by
  funext t
  rw [mentions_eq, mentions_eq, if_neg (by simpa [isAtom] using hatom),
    if_neg (by simpa [isAtom, ← hkind] using hatom), ← hkind]
  exact List.flatMap_congr fun f hf => congrFun (h f hf) _

end Node

namespace SymbolRegistry

open Node

variable {r r' : SymbolRegistry} {n m : Node}

/-- The signatures of the occurrences of one usage. -/
theorem map_signature_usages (h : r.Faithful n) (u : Usage) :
    ((r.usages n).filterMap fun x => if x.1 = u then some x.2.signature else none) =
      (n.mentions {}).filterMap fun x => if x.1 = u then x.2 else none := by
  rw [usages, resolved, mentions, List.filterMap_filterMap, List.filterMap_map]
  refine List.filterMap_congr fun x hx => ?_
  have hmem : x.2 ∈ n.topAtoms := by
    have hatoms : x ∈ n.atoms := hx
    rw [Node.atoms_eq_routes] at hatoms
    obtain ⟨y, hy, rfl⟩ := List.mem_map.mp hatoms
    exact List.mem_map_of_mem hy
  obtain ⟨s, documentation, hfresh, hresolve⟩ := h x.2 hmem
  simp [hresolve, signature?, hfresh]

/-- What faithful registries find in a statement has the signatures of its tree. -/
theorem signature_collect (h : r.Faithful n) (h' : r'.Faithful m)
    (hsame : n.mentions = m.mentions) :
    (r.collect n).defines.map Symbol.signature = (r'.collect m).defines.map Symbol.signature ∧
      (r.collect n).dependsOn.map Symbol.signature =
        (r'.collect m).dependsOn.map Symbol.signature := by
  have hused (u : Usage) :
      ((r.usages n).filterMap fun x => if x.1 = u then some x.2.signature else none) =
        (r'.usages m).filterMap fun x => if x.1 = u then some x.2.signature else none := by
    rw [map_signature_usages h, map_signature_usages h', hsame]
  simp only [collect_eq, List.map_filterMap, apply_ite, Option.map_some, Option.map_none]
  exact ⟨hused .defined, hused .consumed⟩

end SymbolRegistry
end AspAtlas
