import AspAtlas.Graph.Statement
import Mathlib.Data.Fin.Rev
import Mathlib.Data.List.Basic
/-!
What the statement graph of a list of statements says. Nodes are numbered by the rank of their
statement among the rule-shaped ones, so that everything known of positions in the list carries over
to the graph; in particular the order of the list changes nothing but the numbers.
-/
namespace AspAtlas

/-- The statement, without the dependencies that another one defines. -/
def Statement.withoutSupply (t s : Statement) : Statement :=
  { t with
    dependsOn := t.dependsOn.filter fun q => !(s.defines.any fun p => p.signature == q.signature) }

theorem Statement.feeds_eq_true_iff {s t : Statement} :
    s.feeds t = true ↔ ∃ p ∈ s.defines, ∃ q ∈ t.dependsOn, p.signature = q.signature := by
  simp [feeds]

theorem Statement.not_feeds_withoutSupply (s t : Statement) :
    s.feeds (t.withoutSupply s) = false := by
  rw [Bool.eq_false_iff, Ne, feeds_eq_true_iff]
  rintro ⟨p, hp, q, hq, he⟩
  have hkept := (List.mem_filter.mp hq).2
  simp only [Bool.not_eq_true', List.any_eq_false, beq_iff_eq] at hkept
  exact hkept p hp he

theorem Statement.feeds_of_feeds_withoutSupply {r s t : Statement}
    (h : r.feeds (t.withoutSupply s) = true) : r.feeds t = true := by
  obtain ⟨p, hp, q, hq, he⟩ := feeds_eq_true_iff.mp h
  exact feeds_eq_true_iff.mpr ⟨p, hp, q, List.mem_of_mem_filter hq, he⟩

namespace StatementGraph

/-- The statements that have a node, in order. -/
def members (ss : List Statement) : List Statement := ss.filter fun s => s.kind.isRuleShaped

/-- How many statements before a position have a node. -/
def rank (ss : List Statement) (i : Nat) : Nat := (members (ss.take i)).length

/-- A statement that has a node stands at a position. -/
structure Member (ss : List Statement) (i : Nat) (s : Statement) : Prop where
  at_position : ss[i]? = some s
  shaped : s.kind.isRuleShaped = true

variable {ss ts : List Statement} {i j a b : Nat} {s t : Statement}

theorem members_append (ss ts : List Statement) : members (ss ++ ts) = members ss ++ members ts :=
  List.filter_append ss ts

theorem members_cons (h : s.kind.isRuleShaped = true) (ss : List Statement) :
    members (s :: ss) = s :: members ss :=
  List.filter_cons_of_pos h

namespace Member

theorem lt (h : Member ss i s) : i < ss.length := (List.getElem?_eq_some_iff.mp h.at_position).1

theorem split (h : Member ss i s) : ss = ss.take i ++ s :: ss.drop (i + 1) := by
  obtain ⟨hi, hs⟩ := List.getElem?_eq_some_iff.mp h.at_position
  rw [← hs, ← List.drop_eq_getElem_cons hi, List.take_append_drop]

theorem unique (h : Member ss i s) (h' : Member ss i t) : s = t :=
  Option.some.inj (h.at_position.symm.trans h'.at_position)

theorem members_split (h : Member ss i s) :
    members ss = members (ss.take i) ++ s :: members (ss.drop (i + 1)) := by
  conv_lhs => rw [h.split]
  rw [members_append, members_cons h.shaped]

/-- A statement has the node of its rank. -/
theorem members_rank (h : Member ss i s) : (members ss)[rank ss i]? = some s := by
  rw [h.members_split, rank, List.getElem?_append_right (Nat.le_refl _), Nat.sub_self]
  rfl

theorem rank_lt_rank (h : Member ss i s) (hij : i < j) : rank ss i < rank ss j := by
  have hlonger : ss.take j = ss.take i ++ s :: (ss.drop (i + 1)).take (j - (i + 1)) := by
    conv_lhs => rw [h.split]
    have hlength : (ss.take i).length = i := List.length_take_of_le (Nat.le_of_lt h.lt)
    rw [List.take_append, hlength, List.take_of_length_le (by omega)]
    obtain ⟨k, hk⟩ : ∃ k, j - i = k + 1 := ⟨j - i - 1, by omega⟩
    rw [hk, List.take_succ_cons, show j - (i + 1) = k by omega]
  rw [rank, rank, hlonger, members_append, members_cons h.shaped]
  simp

/-- Different positions have different ranks. -/
theorem rank_injective (h : Member ss i s) (h' : Member ss j t)
    (he : rank ss i = rank ss j) : i = j := by
  rcases Nat.lt_trichotomy i j with hlt | heq | hgt
  · have := h.rank_lt_rank hlt
    omega
  · exact heq
  · have := h'.rank_lt_rank hgt
    omega

/-- Another statement in the same place leaves the ranks as they are. -/
theorem members_set (h : Member ss i s) (ht : t.kind.isRuleShaped = true) :
    members (ss.set i t) = (members ss).set (rank ss i) t := by
  have hset : ss.set i t = ss.take i ++ t :: ss.drop (i + 1) := by
    rw [List.set_eq_take_append_cons_drop, if_pos h.lt]
  rw [hset, members_append, members_cons ht, h.members_split, rank,
    List.set_append_right _ _ (Nat.le_refl _), Nat.sub_self, List.set_cons_zero]

end Member

/-- Every node is that of a statement, by its rank. -/
theorem exists_member (h : (members ss)[a]? = some s) : ∃ i, Member ss i s ∧ rank ss i = a := by
  induction ss generalizing a with
  | nil => simp [members] at h
  | cons r ss ih =>
    have hrank (i : Nat) : rank (r :: ss) (i + 1) = (members [r]).length + rank ss i := by
      rw [rank, rank, List.take_succ_cons, ← List.singleton_append, members_append,
        List.length_append]
    cases hr : r.kind.isRuleShaped with
    | false =>
      have hnone : members [r] = [] := List.filter_cons_of_neg (by simp [hr])
      rw [← List.singleton_append, members_append, hnone, List.nil_append] at h
      obtain ⟨i, hi, he⟩ := ih h
      exact ⟨i + 1, ⟨hi.at_position, hi.shaped⟩,
        by rw [hrank, hnone, he, List.length_nil, Nat.zero_add]⟩
    | true =>
      rw [members_cons hr] at h
      cases a with
      | zero => exact ⟨0, ⟨h, Option.some.inj h ▸ hr⟩, rfl⟩
      | succ a =>
        obtain ⟨i, hi, he⟩ := ih h
        refine ⟨i + 1, ⟨hi.at_position, hi.shaped⟩, ?_⟩
        rw [hrank, members_cons hr, he, Nat.add_comm]
        rfl

theorem node?_build (ss : List Statement) (a : Nat) :
    (build ss).node? a = (members ss)[a]?.map fun s => nodeOf s a := by
  simp only [node?, build, List.getElem?_map, List.getElem?_zipIdx, Option.map_map]
  rw [Nat.zero_add]
  rfl

theorem mem_edgesOf {numbered : List (Statement × Nat)} {e : Edge Nat} :
    e ∈ edgesOf numbered ↔ e.source ≠ e.target ∧ ∃ s t, (s, e.source) ∈ numbered ∧
      (t, e.target) ∈ numbered ∧ s.feeds t = true := by
  simp only [edgesOf, List.mem_flatMap, List.mem_filterMap, Prod.exists,
    Option.ite_none_right_eq_some, Option.some.injEq]
  constructor
  · rintro ⟨s, a, hs, t, b, ht, ⟨hne, hfeeds⟩, rfl⟩
    exact ⟨hne, s, t, hs, ht, hfeeds⟩
  · rintro ⟨hne, s, t, hs, ht, hfeeds⟩
    exact ⟨s, e.source, hs, t, e.target, ht, ⟨hne, hfeeds⟩, rfl⟩

/-- An edge leads from one statement to another that it feeds. -/
theorem mem_edges_build {e : Edge Nat} :
    e ∈ (build ss).edges ↔ e.source ≠ e.target ∧ ∃ s t, (members ss)[e.source]? = some s ∧
      (members ss)[e.target]? = some t ∧ s.feeds t = true := by
  simp only [build, OrderedSet.mem_ofList, mem_edgesOf, List.mem_zipIdx_iff_getElem?, members]

theorem mem_edges_rank {e : Edge Nat} :
    e ∈ (build ss).edges ↔ ∃ i j s t, Member ss i s ∧ Member ss j t ∧ i ≠ j ∧ s.feeds t = true ∧
      e = ⟨rank ss i, rank ss j⟩ := by
  rw [mem_edges_build]
  constructor
  · rintro ⟨hne, s, t, hs, ht, hfeeds⟩
    obtain ⟨i, hi, hrank⟩ := exists_member hs
    obtain ⟨j, hj, hrank'⟩ := exists_member ht
    refine ⟨i, j, s, t, hi, hj, ?_, hfeeds, by rw [hrank, hrank']⟩
    rintro rfl
    exact hne (hrank.symm.trans hrank')
  · rintro ⟨i, j, s, t, hi, hj, hne, hfeeds, rfl⟩
    exact ⟨fun he => hne (hi.rank_injective hj he), s, t, hi.members_rank, hj.members_rank, hfeeds⟩

/-- Which statements an edge connects can be read off their positions. -/
theorem edge_iff_of_members (hs : Member ss i s) (ht : Member ss j t) :
    ⟨rank ss i, rank ss j⟩ ∈ (build ss).edges ↔ i ≠ j ∧ s.feeds t = true := by
  rw [mem_edges_rank]
  constructor
  · rintro ⟨k, l, s', t', hs', ht', hne, hfeeds, he⟩
    simp only [Edge.mk.injEq] at he
    obtain rfl := hs.rank_injective hs' he.1
    obtain rfl := ht.rank_injective ht' he.2
    rw [hs.unique hs', ht.unique ht']
    exact ⟨hne, hfeeds⟩
  · rintro ⟨hne, hfeeds⟩
    exact ⟨i, j, s, t, hs, ht, hne, hfeeds, rfl⟩

theorem mem_successors {g : StatementGraph} {n : StatementNode} :
    n ∈ g.successors a ↔ ∃ b, ⟨a, b⟩ ∈ g.edges ∧ g.node? b = some n := by
  simp only [successors, List.mem_filterMap, Option.ite_none_right_eq_some]
  constructor
  · rintro ⟨e, he, rfl, hn⟩
    exact ⟨e.target, he, hn⟩
  · rintro ⟨b, he, hn⟩
    exact ⟨_, he, rfl, hn⟩

theorem mem_predecessors {g : StatementGraph} {n : StatementNode} :
    n ∈ g.predecessors b ↔ ∃ a, ⟨a, b⟩ ∈ g.edges ∧ g.node? a = some n := by
  simp only [predecessors, List.mem_filterMap, Option.ite_none_right_eq_some]
  constructor
  · rintro ⟨e, he, rfl, hn⟩
    exact ⟨e.source, he, hn⟩
  · rintro ⟨a, he, hn⟩
    exact ⟨_, he, rfl, hn⟩

theorem mem_labeledEdges {g : StatementGraph} {x y : String} :
    ⟨x, y⟩ ∈ g.labeledEdges ↔ ∃ a b m n, ⟨a, b⟩ ∈ g.edges ∧ g.node? a = some m ∧
      g.node? b = some n ∧ m.label = x ∧ n.label = y := by
  simp only [labeledEdges, OrderedSet.mem_ofList, List.mem_filterMap, Option.bind_eq_bind,
    Option.bind_eq_some_iff, Option.some.injEq, Edge.mk.injEq]
  constructor
  · rintro ⟨e, he, m, hm, n, hn, rfl, rfl⟩
    exact ⟨e.source, e.target, m, n, he, hm, hn, rfl, rfl⟩
  · rintro ⟨a, b, m, n, he, hm, hn, rfl, rfl⟩
    exact ⟨_, he, m, hm, n, hn, rfl, rfl⟩

theorem id_of_node?_build {n : StatementNode} (h : (build ss).node? a = some n) : n.id = a := by
  rw [node?_build] at h
  obtain ⟨s, -, rfl⟩ := Option.map_eq_some_iff.mp h
  rfl

/-- Both ends of an edge have a node. -/
theorem exists_nodes_of_edge (h : ⟨a, b⟩ ∈ (build ss).edges) :
    ∃ m n, (build ss).node? a = some m ∧ (build ss).node? b = some n := by
  obtain ⟨-, s, t, hs, ht, -⟩ := mem_edges_build.mp h
  exact ⟨nodeOf s a, nodeOf t b, by rw [node?_build, hs]; rfl, by rw [node?_build, ht]; rfl⟩

/-- A graph shows some statements: one node for each that is rule-shaped, numbered by rank, and an
edge wherever one of them defines a signature that another one depends on. -/
structure Shows (g : StatementGraph) (ss : List Statement) : Prop where
  size : g.nodes.length = (members ss).length
  node : ∀ i s, Member ss i s → g.node? (rank ss i) = some (nodeOf s (rank ss i))
  member : ∀ a n, g.node? a = some n → ∃ i s, Member ss i s ∧ rank ss i = a
  distinct : ∀ i j s t, Member ss i s → Member ss j t → rank ss i = rank ss j → i = j
  edge : ∀ a b, ⟨a, b⟩ ∈ g.edges ↔ a ≠ b ∧ ∃ s t, (members ss)[a]? = some s ∧
    (members ss)[b]? = some t ∧ ∃ p ∈ s.defines, ∃ q ∈ t.dependsOn, p.signature = q.signature
  neighbours : ∀ a b, ((∃ n ∈ g.successors a, n.id = b) ↔ ⟨a, b⟩ ∈ g.edges) ∧
    ((∃ n ∈ g.predecessors b, n.id = a) ↔ ⟨a, b⟩ ∈ g.edges)
  labels : ∀ x y, ⟨x, y⟩ ∈ g.labeledEdges ↔ ∃ a b m n, ⟨a, b⟩ ∈ g.edges ∧ g.node? a = some m ∧
    g.node? b = some n ∧ m.label = x ∧ n.label = y

theorem shows_build (ss : List Statement) : (build ss).Shows ss where
  size := by simp [build, members]
  node i s hs := by rw [node?_build, hs.members_rank, Option.map_some]
  member a n h := by
    rw [node?_build] at h
    obtain ⟨s, hs, -⟩ := Option.map_eq_some_iff.mp h
    obtain ⟨i, hi, hrank⟩ := exists_member hs
    exact ⟨i, s, hi, hrank⟩
  distinct i j s t hs ht := hs.rank_injective ht
  edge a b := by simp only [mem_edges_build, Statement.feeds_eq_true_iff]
  neighbours a b := by
    constructor
    · constructor
      · rintro ⟨n, hn, rfl⟩
        obtain ⟨b, he, hb⟩ := mem_successors.mp hn
        rwa [id_of_node?_build hb]
      · intro he
        obtain ⟨-, n, -, hn⟩ := exists_nodes_of_edge he
        exact ⟨n, mem_successors.mpr ⟨b, he, hn⟩, id_of_node?_build hn⟩
    · constructor
      · rintro ⟨n, hn, rfl⟩
        obtain ⟨a, he, ha⟩ := mem_predecessors.mp hn
        rwa [id_of_node?_build ha]
      · intro he
        obtain ⟨m, -, hm, -⟩ := exists_nodes_of_edge he
        exact ⟨m, mem_predecessors.mpr ⟨a, he, hm⟩, id_of_node?_build hm⟩
  labels _ _ := mem_labeledEdges

/-- Without the dependencies that `s` supplies, a statement loses its edge from `s`, gets no new
one, and no edge to another statement changes. -/
theorem edges_withoutSupply (ht : Member ss j t) (hs : (members ss)[a]? = some s) :
    ⟨a, rank ss j⟩ ∉ (build (ss.set j (t.withoutSupply s))).edges ∧
      (∀ e ∈ (build (ss.set j (t.withoutSupply s))).edges, e ∈ (build ss).edges) ∧
      ∀ e ∈ (build ss).edges, e.target ≠ rank ss j →
        e ∈ (build (ss.set j (t.withoutSupply s))).edges := by
  have hmembers : members (ss.set j (t.withoutSupply s)) =
      (members ss).set (rank ss j) (t.withoutSupply s) :=
    ht.members_set (by rw [Statement.withoutSupply]; exact ht.shaped)
  obtain ⟨hlt, -⟩ := List.getElem?_eq_some_iff.mp ht.members_rank
  -- the statement in the place of `t` defines the same and depends on no more
  have hget (c : Nat) : (members (ss.set j (t.withoutSupply s)))[c]? =
      if rank ss j = c then some (t.withoutSupply s) else (members ss)[c]? := by
    rw [hmembers, List.getElem?_set]
    by_cases hc : rank ss j = c
    · simp [hc, hc ▸ hlt]
    · simp [hc]
  refine ⟨?_, ?_, ?_⟩
  · rw [mem_edges_build]
    rintro ⟨hne, r, u, hr, hu, hfeeds⟩
    rw [hget, if_neg (Ne.symm hne), hs, Option.some.injEq] at hr
    rw [hget, if_pos rfl, Option.some.injEq] at hu
    subst hr hu
    rw [Statement.not_feeds_withoutSupply] at hfeeds
    cases hfeeds
  · intro e he
    obtain ⟨hne, r, u, hr, hu, hfeeds⟩ := mem_edges_build.mp he
    rw [hget] at hr hu
    by_cases hsource : rank ss j = e.source
    · rw [if_pos hsource, Option.some.injEq] at hr
      rw [if_neg (hsource ▸ hne)] at hu
      subst hr
      exact mem_edges_build.mpr ⟨hne, t, u, hsource ▸ ht.members_rank, hu, hfeeds⟩
    · rw [if_neg hsource] at hr
      by_cases htarget : rank ss j = e.target
      · rw [if_pos htarget, Option.some.injEq] at hu
        subst hu
        exact mem_edges_build.mpr ⟨hne, r, t, hr, htarget ▸ ht.members_rank,
          Statement.feeds_of_feeds_withoutSupply hfeeds⟩
      · rw [if_neg htarget] at hu
        exact mem_edges_build.mpr ⟨hne, r, u, hr, hu, hfeeds⟩
  · intro e he htarget
    obtain ⟨hne, r, u, hr, hu, hfeeds⟩ := mem_edges_build.mp he
    by_cases hsource : rank ss j = e.source
    · obtain rfl : r = t := Option.some.inj (hr.symm.trans (hsource ▸ ht.members_rank))
      refine mem_edges_build.mpr ⟨hne, r.withoutSupply s, u, ?_, ?_, hfeeds⟩
      · rw [hget, if_pos hsource]
      · rw [hget, if_neg (Ne.symm htarget), hu]
    · refine mem_edges_build.mpr ⟨hne, r, u, ?_, ?_, hfeeds⟩
      · rw [hget, if_neg hsource, hr]
      · rw [hget, if_neg (Ne.symm htarget), hu]

section Rearranged

variable {σ : Fin ss.length ≃ Fin ts.length} (hσ : ∀ i, ts.get (σ i) = ss.get i)

include hσ

theorem Member.rearranged {i : Fin ss.length} (h : Member ss i s) : Member ts (σ i) s := by
  refine ⟨?_, h.shaped⟩
  obtain ⟨hi, hs⟩ := List.getElem?_eq_some_iff.mp h.at_position
  rw [List.getElem?_eq_some_iff]
  exact ⟨(σ i).isLt, (hσ i).trans hs⟩

/-- Rearranging the statements renumbers the edges. -/
theorem edge_rearranged {i j : Fin ss.length} (hs : Member ss i s) (ht : Member ss j t) :
    ⟨rank ss i, rank ss j⟩ ∈ (build ss).edges ↔
      ⟨rank ts (σ i), rank ts (σ j)⟩ ∈ (build ts).edges := by
  rw [edge_iff_of_members hs ht, edge_iff_of_members (hs.rearranged hσ) (ht.rearranged hσ)]
  have hne : (i : Nat) ≠ j ↔ (σ i : Nat) ≠ σ j := by
    rw [Ne, Fin.val_inj, Ne, Fin.val_inj, EmbeddingLike.apply_eq_iff_eq]
  rw [hne]

theorem labeledEdges_subset_rearranged {x y : String} (h : ⟨x, y⟩ ∈ (build ss).labeledEdges) :
    ⟨x, y⟩ ∈ (build ts).labeledEdges := by
  obtain ⟨a, b, m, n, he, hm, hn, rfl, rfl⟩ := mem_labeledEdges.mp h
  obtain ⟨i, j, s, t, hs, ht, -, -, hranks⟩ := mem_edges_rank.mp he
  simp only [Edge.mk.injEq] at hranks
  obtain ⟨rfl, rfl⟩ := hranks
  rw [node?_build, hs.members_rank, Option.map_some, Option.some.injEq] at hm
  rw [node?_build, ht.members_rank, Option.map_some, Option.some.injEq] at hn
  subst hm hn
  have hs' := Member.rearranged hσ (i := ⟨i, hs.lt⟩) hs
  have ht' := Member.rearranged hσ (i := ⟨j, ht.lt⟩) ht
  have he' := (edge_rearranged hσ (i := ⟨i, hs.lt⟩) (j := ⟨j, ht.lt⟩) hs ht).mp he
  have hshows := shows_build ts
  exact mem_labeledEdges.mpr ⟨_, _, _, _, he', hshows.node _ _ hs', hshows.node _ _ ht', rfl, rfl⟩

end Rearranged

/-- However the statements are rearranged, the edges lead between the same labels. -/
theorem labeledEdges_rearranged (σ : Fin ss.length ≃ Fin ts.length)
    (hσ : ∀ i, ts.get (σ i) = ss.get i) : (build ss).labeledEdges = (build ts).labeledEdges := by
  have hback : ∀ i, ss.get (σ.symm i) = ts.get i := by
    intro i
    have hi := hσ (σ.symm i)
    simp only [Equiv.apply_symm_apply] at hi
    exact hi.symm
  exact OrderedSet.eq_iff_mem.mpr fun _ =>
    ⟨labeledEdges_subset_rearranged hσ, labeledEdges_subset_rearranged hback⟩

/-- The graph of any statements shows exactly them. Taking away from a statement what another one
supplies takes away the edge between them and adds none, and rearranging the statements changes
nothing but the numbers of the nodes. -/
theorem build_shows_in_any_order (ss : List Statement) :
    (build ss).Shows ss ∧
    (∀ j t a s, Member ss j t → (members ss)[a]? = some s →
      ⟨a, rank ss j⟩ ∉ (build (ss.set j (t.withoutSupply s))).edges ∧
        (∀ e ∈ (build (ss.set j (t.withoutSupply s))).edges, e ∈ (build ss).edges) ∧
        ∀ e ∈ (build ss).edges, e.target ≠ rank ss j →
          e ∈ (build (ss.set j (t.withoutSupply s))).edges) ∧
    ∀ (ts : List Statement) (σ : Fin ss.length ≃ Fin ts.length), (∀ i, ts.get (σ i) = ss.get i) →
      (∀ i s, Member ss i.val s → Member ts (σ i).val s) ∧
        (∀ (i j : Fin ss.length) (s t : Statement), Member ss i s → Member ss j t →
          (⟨rank ss i, rank ss j⟩ ∈ (build ss).edges ↔
            ⟨rank ts (σ i), rank ts (σ j)⟩ ∈ (build ts).edges)) ∧
        (build ss).labeledEdges = (build ts).labeledEdges := by
  refine ⟨shows_build ss, fun j t a s ht hs => edges_withoutSupply ht hs,
    fun ts σ hσ => ⟨?_, ?_, ?_⟩⟩
  · intro i s hs
    exact hs.rearranged hσ
  · intro i j s t hs ht
    exact edge_rearranged hσ hs ht
  · exact labeledEdges_rearranged σ hσ

/-- A fact, a definition and a rule that depends on the fact. -/
def suppliedRule : List Statement :=
  [.bare .fact "p/0" [.occurrence "p" [] default none] [] default none,
    .bare .definition "n" [] [] default none,
    .bare .rule "q/0" [.occurrence "q" [] default none]
    [.occurrence "p" [] default none] default none]

/-- The edge from the fact to the rule turns around with the list, and goes with the dependency. -/
theorem build_shows_in_any_order_of_rule :
    ⟨0, 1⟩ ∈ (build suppliedRule).edges ∧ ⟨1, 0⟩ ∈ (build suppliedRule.reverse).edges ∧
      ∃ s t, Member suppliedRule 0 s ∧ Member suppliedRule 2 t ∧
        ⟨0, 1⟩ ∉ (build (suppliedRule.set 2 (t.withoutSupply s))).edges := by
  obtain ⟨hshows, hcut, hany⟩ := build_shows_in_any_order suppliedRule
  have hs : Member suppliedRule 0 _ := ⟨rfl, rfl⟩
  have ht : Member suppliedRule 2 _ := ⟨rfl, rfl⟩
  have hedge : ⟨0, 1⟩ ∈ (build suppliedRule).edges := by
    refine (hshows.edge 0 1).mpr ⟨by decide, _, _, hs.members_rank, ht.members_rank, ?_⟩
    exact ⟨_, List.mem_singleton_self _, _, List.mem_singleton_self _, rfl⟩
  have hturned := hany suppliedRule.reverse Fin.revPerm fun
    | ⟨0, _⟩ | ⟨1, _⟩ | ⟨2, _⟩ => rfl
  refine ⟨hedge, (hturned.2.1 ⟨0, hs.lt⟩ ⟨2, ht.lt⟩ _ _ hs ht).mp hedge, _, _, hs, ht, ?_⟩
  exact (hcut 2 _ 0 _ ht hs.members_rank).1

end StatementGraph
end AspAtlas
