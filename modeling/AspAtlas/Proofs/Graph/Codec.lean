import AspAtlas.Graph.Json
import AspAtlas.Proofs.Statement.Codec
/-!
Graphs are read back from how they are written, with the groups that they have and no others.
-/
namespace AspAtlas

open Json

/-- A node with numbers of 64 bits. -/
structure StatementNode.Fits (n : StatementNode) : Prop where
  id : IsWord n.id
  location : n.location.Fits

/-- An edge between things that fit. -/
structure Edge.Fits {α : Type} (fits : α → Prop) (e : Edge α) : Prop where
  source : fits e.source
  target : fits e.target

/-- A statement graph with numbers of 64 bits. -/
structure StatementGraph.Fits (g : StatementGraph) : Prop where
  nodes : ∀ n ∈ g.nodes, n.Fits
  edges : ∀ e ∈ g.edges.toList, e.Fits IsWord

namespace Json.Codec

variable {α : Type} {write : α → Json} {read? : Json → Option α} {fits : α → Prop}

/-- A set is the set of its list, and a set of a list has no other elements. -/
theorem set [Ord α] [Std.TransOrd α] [Std.LawfulEqOrd α] (c : Codec write read? fits) :
    Codec (OrderedSet.toJson write) (OrderedSet.ofJson? read?) fun s => ∀ x ∈ s.toList, fits x where
  plain s := c.list.plain s.toList
  read_write {s} h := by
    rw [OrderedSet.ofJson?, OrderedSet.toJson, c.list.read_write h, Option.map_some,
      Option.some.injEq]
    exact OrderedSet.eq_iff_mem.mpr fun _ => OrderedSet.mem_ofList
  fits_of_read {j s} h := by
    obtain ⟨xs, hxs, rfl⟩ := Option.map_eq_some_iff.mp h
    exact fun x hx => c.list.fits_of_read hxs x (OrderedSet.mem_ofList.mp hx)

theorem edge (c : Codec write read? fits) :
    Codec (Edge.toJson write) (Edge.ofJson? read?) (Edge.Fits fits) where
  plain e := .arr (by simp [c.plain])
  read_write {e} h := by
    have hpair : pair? read? read? (e.toJson write) = some (e.source, e.target) := by
      simp only [Edge.toJson, pair?, ↓bind_eq_some_iff, Option.some.injEq]
      exact ⟨_, c.read_write h.source, _, c.read_write h.target, rfl⟩
    rw [Edge.ofJson?, hpair, Option.map_some]
  fits_of_read {j e} h := by
    obtain ⟨p, hp, rfl⟩ := Option.map_eq_some_iff.mp h
    rw [pair?.eq_def] at hp
    split at hp
    · simp only [↓bind_eq_some_iff, Option.some.injEq] at hp
      obtain ⟨a, ha, b, hb, rfl⟩ := hp
      exact ⟨c.fits_of_read ha, c.fits_of_read hb⟩
    · cases hp

theorem node : Codec StatementNode.toJson StatementNode.ofJson? StatementNode.Fits where
  plain n := .obj (by simp [nat.plain, text.plain, location.plain])
  read_write {n} h := by
    have hrecord : record? ["id", "identity", "kind", "label", "location"] n.toJson =
        some ⟨_, false⟩ := record?_obj (by simp) (.refl _)
    simp only [StatementNode.ofJson?, ↓bind_eq_some_iff, Option.some.injEq]
    refine ⟨_, hrecord, _, nat.read_field h.id ?_, _, text.read_field trivial ?_, _,
      kind.read_field trivial ?_, _, text.read_field trivial ?_, _,
      location.read_field h.location ?_, rfl⟩ <;> simp
  fits_of_read {j n} h := by
    simp only [StatementNode.ofJson?, ↓bind_eq_some_iff, Option.some.injEq] at h
    obtain ⟨r, -, id, hid, identity, -, kind, -, label, -, place, hplace, rfl⟩ := h
    exact ⟨nat.fits_field hid, location.fits_field hplace⟩

theorem statementGraph :
    Codec StatementGraph.toJson StatementGraph.ofJson? StatementGraph.Fits where
  plain g := .obj (by simp [node.list.plain, nat.edge.set.plain])
  read_write {g} h := by
    have hrecord : record? ["nodes", "edges"] g.toJson = some ⟨_, false⟩ :=
      record?_obj (by simp) (.refl _)
    simp only [StatementGraph.ofJson?, ↓bind_eq_some_iff, Option.some.injEq]
    refine ⟨_, hrecord, _, node.list.read_field h.nodes ?_, _,
      nat.edge.set.read_field h.edges ?_, rfl⟩ <;> simp
  fits_of_read {j g} h := by
    simp only [StatementGraph.ofJson?, ↓bind_eq_some_iff, Option.some.injEq] at h
    obtain ⟨r, -, nodes, hnodes, edges, hedges, rfl⟩ := h
    exact ⟨node.list.fits_field hnodes, nat.edge.set.fits_field hedges⟩

theorem texts_set : Codec (OrderedSet.toJson str) (OrderedSet.ofJson? text?) fun _ => True where
  plain := text.set.plain
  read_write _ := text.set.read_write fun _ _ => trivial
  fits_of_read _ := trivial

/-- Groups are members under their names; a group that is missing stays missing. -/
theorem groups : Codec (fun groups => obj (groups.entries.map fun e => (e.1.name, e.2.toJson str)))
    DefinitionGraph.groupsOfJson? fun _ => True where
  plain groups := by
    refine .obj fun m hm => ?_
    obtain ⟨e, -, rfl⟩ := List.mem_map.mp hm
    exact texts_set.plain e.2
  read_write {groups} _ := by
    have hname (g : DefinitionGroup) : DefinitionGroup.ofName? g.name = some g := by
      cases g <;> simp [DefinitionGroup.ofName?, DefinitionGroup.all, DefinitionGroup.name]
    simp only [DefinitionGraph.groupsOfJson?, ↓bind_eq_some_iff, Option.some.injEq]
    refine ⟨groups.entries, mapM_map fun e _ => ?_, OrderedMap.ofList_entries groups⟩
    simp only [↓bind_eq_some_iff, Option.some.injEq]
    exact ⟨_, hname e.1, _, texts_set.read_write trivial, rfl⟩
  fits_of_read _ := trivial

theorem definitionGraph : Codec DefinitionGraph.toJson DefinitionGraph.ofJson? fun _ => True where
  plain g := .obj (by simp [groups.plain, texts_set.plain, text.edge.set.plain])
  read_write {g} _ := by
    have hrecord : record? ["groups", "outputs", "edges"] g.toJson = some ⟨_, false⟩ :=
      record?_obj (by simp) (.refl _)
    simp only [DefinitionGraph.ofJson?, ↓bind_eq_some_iff, Option.some.injEq]
    refine ⟨_, hrecord, _, groups.read_field trivial ?_, _, texts_set.read_field trivial ?_, _,
      text.edge.set.read_field (fun _ _ => ⟨trivial, trivial⟩) ?_, rfl⟩ <;> simp
  fits_of_read _ := trivial

end Json.Codec
end AspAtlas
