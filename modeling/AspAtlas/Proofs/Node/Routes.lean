import AspAtlas.Proofs.Node.Items
import Mathlib.Data.List.Basic
/-!
Routes: the ways from a node to the nodes below it at which a search stops, such as the atoms. These
nodes of a tree are enumerated in pre-order of their routes, and there is only one such enumeration.
-/
namespace AspAtlas

/-- One step of a route: the kind of the node that is left, the field,
and the place in that field. -/
structure Step where
  kind : NodeKind
  field : Field
  index : Nat
deriving DecidableEq

/-- The steps from a node to one below it. -/
abbrev Route := List Step

/-- A route comes first when, where two routes part, its field stands earlier in the table of the
kind, or its item earlier in the same field. -/
inductive Route.Precedes : Route → Route → Prop
  | field {kind : NodeKind} {f g : Field} {i j : Nat} {r s : Route}
      (h : kind.childFields.idxOf f < kind.childFields.idxOf g) :
      Precedes (⟨kind, f, i⟩ :: r) (⟨kind, g, j⟩ :: s)
  | index {kind : NodeKind} {f : Field} {i j : Nat} {r s : Route} (h : i < j) :
      Precedes (⟨kind, f, i⟩ :: r) (⟨kind, f, j⟩ :: s)
  | later {x : Step} {r s : Route} (h : Precedes r s) : Precedes (x :: r) (x :: s)

theorem Route.Precedes.irrefl {r : Route} : ¬ r.Precedes r := by
  intro h
  induction r with
  | nil => cases h
  | cons x r ih =>
    cases h with
    | field h => exact Nat.lt_irrefl _ h
    | index h => exact Nat.lt_irrefl _ h
    | later h => exact ih h

theorem Route.Precedes.asymm {r s : Route} (h : r.Precedes s) : ¬ s.Precedes r := by
  intro hs
  induction h with
  | field h =>
    cases hs with
    | field hs => omega
    | index hs => exact Nat.lt_irrefl _ h
    | later hs => exact Nat.lt_irrefl _ h
  | index h =>
    cases hs with
    | field hs => exact Nat.lt_irrefl _ hs
    | index hs => omega
    | later hs => exact Nat.lt_irrefl _ h
  | later h ih =>
    cases hs with
    | field hs => exact Nat.lt_irrefl _ hs
    | index hs => exact Nat.lt_irrefl _ hs
    | later hs => exact ih hs

namespace Node

/-- A route leads from a node to one at which a search stops, through fields that the kinds on the
way carry and never through another such node. -/
inductive Reaches (stop : Node → Bool) : Node → Route → Node → Prop
  | here {n : Node} (h : stop n = true) : Reaches stop n [] n
  | through {n m a : Node} {f : Field} {c : Child Node} {i : Nat} {r : Route}
      (hn : stop n = false) (hf : f ∈ n.kind.childFields)
      (hc : Children.get? f n.fields = some c) (hi : c.toList[i]? = some m)
      (h : Reaches stop m r a) : Reaches stop n (⟨n.kind, f, i⟩ :: r) a

/-- A list of routes with their ends that has every node of a tree at which a search stops, in
pre-order. -/
structure ListsRoutes (stop : Node → Bool) (n : Node) (found : List (Route × Node)) : Prop where
  complete : ∀ r a, (r, a) ∈ found ↔ Reaches stop n r a
  ordered : found.Pairwise fun x y => x.1.Precedes y.1

/-- A list of routes with their ends that has every atom of a tree, in pre-order. -/
abbrev Enumerates : Node → List (Route × Node) → Prop := ListsRoutes isAtom

variable {stop : Node → Bool}

theorem items_get?_eq_some {n m : Node} {f : Field} {i : Nat} (h : (n.items f)[i]? = some m) :
    ∃ c, Children.get? f n.fields = some c ∧ c.toList[i]? = some m := by
  simp only [items, Children.items] at h
  split at h
  · rename_i c hc
    exact ⟨c, hc, h⟩
  · simp at h

theorem reaches_iff {n a : Node} {r : Route} :
    Reaches stop n r a ↔ (stop n = true ∧ r = [] ∧ a = n) ∨
      (stop n = false ∧ ∃ f i m s, f ∈ n.kind.childFields ∧ (n.items f)[i]? = some m ∧
        r = ⟨n.kind, f, i⟩ :: s ∧ Reaches stop m s a) := by
  constructor
  · intro h
    cases h with
    | here h => exact .inl ⟨h, rfl, rfl⟩
    | @through _ m _ f c i s hn hf hc hi h =>
      refine .inr ⟨hn, f, i, m, s, hf, ?_, rfl, h⟩
      simpa [items, Children.items, hc] using hi
  · rintro (⟨h, rfl, rfl⟩ | ⟨hn, f, i, m, s, hf, hi, rfl, h⟩)
    · exact .here h
    · obtain ⟨c, hc, hi⟩ := items_get?_eq_some hi
      exact .through hn hf hc hi h

/-- The routes of a node from those of its children. -/
def routeStep (stop : Node → Bool) (n : Node) (below : Children (List (Route × Node))) :
    List (Route × Node) :=
  if stop n then [([], n)]
  else
    (Children.carried n.kind below).flatMap fun e =>
      e.2.toList.zipIdx.flatMap fun x => x.1.map fun y => (⟨n.kind, e.1, x.2⟩ :: y.1, y.2)

/-- The routes to the nodes of a tree at which a search stops, in pre-order. -/
def routesTo (stop : Node → Bool) (n : Node) : List (Route × Node) := n.fold (routeStep stop)

/-- The routes to the atoms of a tree. -/
def routes (n : Node) : List (Route × Node) := n.routesTo isAtom

theorem items_mapItems {α : Type} (g : Node → α) (n : Node) (f : Field) :
    Children.items (Children.mapItems g n.fields) f = (n.items f).map g := by
  simp only [items, Children.items, Children.get?_mapItems]
  cases Children.get? f n.fields <;> simp

theorem routesTo_eq (stop : Node → Bool) (n : Node) :
    n.routesTo stop = if stop n then [([], n)]
      else n.kind.childFields.flatMap fun f => (n.items f).zipIdx.flatMap fun x =>
        (x.1.routesTo stop).map fun y => (⟨n.kind, f, x.2⟩ :: y.1, y.2) := by
  rw [routesTo, fold_eq, routeStep]
  split
  · rfl
  · rw [Children.flatMap_carried n.kind _ (fun f (found : List (List (Route × Node))) =>
      found.zipIdx.flatMap fun x => x.1.map fun y => (⟨n.kind, f, x.2⟩ :: y.1, y.2)) (by simp)]
    simp only [items_mapItems, List.zipIdx_map, List.flatMap_map]
    rfl

theorem routes_eq (n : Node) :
    n.routes = if n.isAtom then [([], n)]
      else n.kind.childFields.flatMap fun f =>
        (n.items f).zipIdx.flatMap fun x => x.1.routes.map
          fun y => (⟨n.kind, f, x.2⟩ :: y.1, y.2) :=
  routesTo_eq isAtom n

/-- The nodes of a tree at which a search stops, in pre-order. -/
def endsAt (stop : Node → Bool) (n : Node) : List Node := (n.routesTo stop).map Prod.snd

/-- The atoms of a tree that stand below no other atom, in pre-order. -/
def topAtoms (n : Node) : List Node := n.routes.map Prod.snd

theorem endsAt_eq (stop : Node → Bool) (n : Node) :
    n.endsAt stop = if stop n then [n]
      else n.kind.childFields.flatMap fun f => (n.items f).flatMap (endsAt stop) := by
  rw [endsAt, routesTo_eq]
  split
  · rfl
  · rw [List.map_flatMap]
    refine List.flatMap_congr fun f _ => ?_
    rw [List.map_flatMap]
    conv_rhs => rw [← List.zipIdx_map_fst 0 (n.items f), List.flatMap_map]
    refine List.flatMap_congr fun x _ => ?_
    simp [endsAt]

theorem topAtoms_eq (n : Node) :
    n.topAtoms = if n.isAtom then [n]
      else n.kind.childFields.flatMap fun f => (n.items f).flatMap topAtoms :=
  endsAt_eq isAtom n

theorem topAtoms_atom {n : Node} (h : n.kind = .symbolicAtom) : n.topAtoms = [n] := by
  simp [topAtoms_eq n, isAtom, h]

theorem topAtoms_of_kind {n : Node} (h : n.kind ≠ .symbolicAtom) :
    n.topAtoms = n.kind.childFields.flatMap fun f => (n.items f).flatMap topAtoms := by
  have hatom : ¬ n.isAtom = true := by simpa [isAtom] using h
  rw [topAtoms_eq, if_neg hatom]

/-- Where an atom has no atoms below it, a walk over the whole tree meets no other atoms. -/
theorem mem_topAtoms_of_mem_visit {n a : Node} {enter : Node → Bool}
    (h : ∀ b ∈ n.topAtoms, ∀ f, ∀ m ∈ b.items f, m.topAtoms = []) (ha : a ∈ n.visit enter)
    (hatom : a.isAtom = true) : a ∈ n.topAtoms := by
  induction n using Node.induction with
  | step n ih =>
    have below {f : Field} {m : Node} (hf : f ∈ n.kind.childFields) (hm : m ∈ n.items f)
        (hnone : n.isAtom = false) : ∀ b ∈ m.topAtoms, b ∈ n.topAtoms := by
      intro b hb
      rw [topAtoms_eq, hnone]
      exact List.mem_flatMap.mpr ⟨f, hf, List.mem_flatMap.mpr ⟨m, hm, hb⟩⟩
    rw [visit_eq_items] at ha
    rcases List.mem_cons.mp ha with rfl | ha
    · rw [topAtoms_eq, if_pos hatom]
      exact List.mem_singleton_self a
    · split at ha
      · obtain ⟨f, hf, ha⟩ := List.mem_flatMap.mp ha
        obtain ⟨m, hm, ha⟩ := List.mem_flatMap.mp ha
        cases hself : n.isAtom with
        | false =>
          have hbelow := below hf hm hself
          exact hbelow a (ih f m hm (fun b hb => h b (hbelow b hb)) ha)
        | true =>
          -- The tree below an atom has none, so the walk cannot have met one there.
          have hnone : m.topAtoms = [] := by
            refine h n ?_ f m hm
            rw [topAtoms_eq, if_pos hself]
            exact List.mem_singleton_self n
          have hmem := ih f m hm (by simp [hnone]) ha
          rw [hnone] at hmem
          cases hmem
      · cases ha

theorem mem_routesTo {n a : Node} {r : Route} :
    (r, a) ∈ n.routesTo stop ↔ Reaches stop n r a := by
  induction n using Node.induction generalizing r with
  | step n ih =>
    rw [routesTo_eq, reaches_iff]
    by_cases h : stop n = true
    · simp [h]
    · simp only [h, Bool.false_eq_true, if_false, List.mem_flatMap, List.mem_map, false_and,
        true_and, false_or]
      constructor
      · rintro ⟨f, hf, ⟨m, i⟩, hx, ⟨s, b⟩, hy, he⟩
        have hi := List.mem_zipIdx_iff_getElem?.mp hx
        obtain ⟨rfl, rfl⟩ := Prod.mk.inj he
        exact ⟨f, i, m, s, hf, hi, rfl, (ih f m (List.mem_of_getElem? hi)).mp hy⟩
      · rintro ⟨f, i, m, s, hf, hi, rfl, hl⟩
        exact ⟨f, hf, (m, i), List.mem_zipIdx_iff_getElem?.mpr hi, (s, a),
          (ih f m (List.mem_of_getElem? hi)).mpr hl, rfl⟩

theorem pairwise_zipIdx_lt {α : Type} (xs : List α) (k : Nat) :
    (xs.zipIdx k).Pairwise fun x y => x.2 < y.2 := by
  induction xs generalizing k with
  | nil => exact .nil
  | cons x xs ih =>
    refine List.pairwise_cons.mpr ⟨fun y hy => ?_, ih (k + 1)⟩
    exact List.le_snd_of_mem_zipIdx hy

theorem childFields_pairwise (kind : NodeKind) :
    kind.childFields.Pairwise fun f g =>
      kind.childFields.idxOf f < kind.childFields.idxOf g := by
  cases kind <;> decide

theorem routesTo_pairwise (stop : Node → Bool) (n : Node) :
    (n.routesTo stop).Pairwise fun x y => x.1.Precedes y.1 := by
  induction n using Node.induction with
  | step n ih =>
    rw [routesTo_eq]
    split
    · exact List.pairwise_singleton ..
    rw [List.pairwise_flatMap]
    refine ⟨fun f _ => ?_, (childFields_pairwise n.kind).imp fun hfg x hx y hy => ?_⟩
    · rw [List.pairwise_flatMap]
      refine ⟨fun ⟨m, i⟩ hm => ?_, (pairwise_zipIdx_lt _ 0).imp fun hij x hx y hy => ?_⟩
      · rw [List.pairwise_map]
        have hmem := List.mem_of_getElem? (List.mem_zipIdx_iff_getElem?.mp hm)
        exact (ih f m hmem).imp .later
      · obtain ⟨x, -, rfl⟩ := List.mem_map.mp hx
        obtain ⟨y, -, rfl⟩ := List.mem_map.mp hy
        exact .index hij
    · obtain ⟨_, -, hx⟩ := List.mem_flatMap.mp hx
      obtain ⟨_, -, hy⟩ := List.mem_flatMap.mp hy
      obtain ⟨x, -, rfl⟩ := List.mem_map.mp hx
      obtain ⟨y, -, rfl⟩ := List.mem_map.mp hy
      exact .field hfg

theorem listsRoutes_routesTo (stop : Node → Bool) (n : Node) :
    ListsRoutes stop n (n.routesTo stop) :=
  ⟨fun _ _ => mem_routesTo, routesTo_pairwise stop n⟩

theorem routes_enumerates (n : Node) : n.Enumerates n.routes := listsRoutes_routesTo isAtom n

/-- There is only one such list of routes. -/
theorem ListsRoutes.eq {n : Node} {xs ys : List (Route × Node)} (hx : ListsRoutes stop n xs)
    (hy : ListsRoutes stop n ys) : xs = ys := by
  have nodup {zs : List (Route × Node)} (hz : ListsRoutes stop n zs) : zs.Nodup := by
    refine hz.ordered.imp fun {a b} hab he => ?_
    subst he
    exact hab.irrefl
  have perm : xs.Perm ys := by
    refine (List.perm_ext_iff_of_nodup (nodup hx) (nodup hy)).mpr fun ⟨r, a⟩ => ?_
    exact (hx.complete r a).trans (hy.complete r a).symm
  refine perm.eq_of_pairwise (fun a b _ _ hab hba => ?_) hx.ordered hy.ordered
  exact (hab.asymm hba).elim

end Node
end AspAtlas
