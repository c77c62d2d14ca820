import AspAtlas.Graph.Definition
import AspAtlas.Graph.Statement
import AspAtlas.Proofs.Text.Decimal
/-!
What DOT text tells of its graph. A quoted name ends at the first quote that is not escaped,
whatever the name is, so every line tells its names and where it ends. The lines of a graph can then
be taken apart again: a definition graph is determined by its text, and so is a statement graph up
to what its text leaves out, the identities and locations of its nodes.
-/
namespace AspAtlas

namespace Dot

/-- Whatever follows it, what is written for a value tells a part of the value and where it ends. -/
def Tells {α β : Type} (write : α → List Char) (part : α → β) : Prop :=
  ∀ ⦃a b : α⦄ ⦃x y : List Char⦄, write a ++ x = write b ++ y → part a = part b ∧ x = y

/-- A text begins with what is written for some value. -/
def Starts {α : Type} (write : α → List Char) (text : List Char) : Prop :=
  ∃ a rest, text = write a ++ rest

/-- A line with its end. -/
def written (line : String) : List Char := line.toList ++ ['\n']

namespace Tells

variable {α β γ : Type} {write other : α → List Char} {part : α → β} {more : α → γ}

/-- One thing written behind another tells what both tell. -/
theorem append (h : Tells write part) (h' : Tells other more) :
    Tells (fun a => write a ++ other a) fun a => (part a, more a) := by
  intro a b x y he
  rw [List.append_assoc, List.append_assoc] at he
  obtain ⟨hpart, hrest⟩ := h he
  obtain ⟨hmore, hend⟩ := h' hrest
  exact ⟨Prod.ext hpart hmore, hend⟩

/-- A fixed text in front changes nothing. -/
theorem behind (h : Tells write part) (lead : List Char) :
    Tells (fun a => lead ++ write a) part := by
  intro a b x y he
  rw [List.append_assoc, List.append_assoc] at he
  exact h (List.append_cancel_left he)

/-- A fixed text at the end changes nothing. -/
theorem before (h : Tells write part) (tail : List Char) :
    Tells (fun a => write a ++ tail) part := by
  intro a b x y he
  rw [List.append_assoc, List.append_assoc] at he
  obtain ⟨hpart, hrest⟩ := h he
  exact ⟨hpart, List.append_cancel_left hrest⟩

/-- What is written for something of a value tells what it tells of that. -/
theorem comp {δ : Type} (h : Tells write part) (of : δ → α) :
    Tells (fun d => write (of d)) fun d => part (of d) :=
  fun _ _ _ _ he => h he

/-- What tells a part tells whatever depends on it. -/
theorem map (h : Tells write part) (f : β → γ) : Tells write fun a => f (part a) := by
  intro a b x y he
  obtain ⟨hpart, hend⟩ := h he
  exact ⟨congrArg f hpart, hend⟩

/-- Rows of things that are written can be taken apart up to where no other row goes on. -/
theorem rows (h : Tells write part) {as bs : List α} {x y : List Char} (hx : ¬ Starts write x)
    (hy : ¬ Starts write y) (he : as.flatMap write ++ x = bs.flatMap write ++ y) :
    as.map part = bs.map part ∧ x = y := by
  induction as generalizing bs with
  | nil =>
    cases bs with
    | nil => exact ⟨rfl, he⟩
    | cons b bs =>
      rw [List.flatMap_nil, List.nil_append, List.flatMap_cons, List.append_assoc] at he
      exact absurd ⟨b, _, he⟩ hx
  | cons a as ih =>
    rw [List.flatMap_cons, List.append_assoc] at he
    cases bs with
    | nil => exact absurd ⟨a, _, he.symm⟩ hy
    | cons b bs =>
      rw [List.flatMap_cons, List.append_assoc] at he
      obtain ⟨hpart, hrest⟩ := h he
      obtain ⟨hparts, hend⟩ := ih hrest
      exact ⟨by rw [List.map_cons, List.map_cons, hpart, hparts], hend⟩

end Tells

theorem toList_quoted (name : String) :
    (quoted name).toList = '"' :: (name.toList.flatMap escapeChar ++ ['"']) := by
  simp [quoted]

/-- An escaped character tells the character. -/
theorem escapeChar_tells : Tells escapeChar id := by
  intro c d x y h
  by_cases hc : c = '\\' ∨ c = '"' <;> by_cases hd : d = '\\' ∨ d = '"' <;>
    simp only [escapeChar, hc, hd, if_true, if_false, List.cons_append, List.nil_append,
      List.cons.injEq] at h
  · exact h.2
  · exact absurd (.inl h.1.symm) hd
  · exact absurd (.inl h.1) hc
  · exact h

/-- No escaped character begins with a bare quote. -/
theorem not_starts_quote (x : List Char) : ¬ Starts escapeChar ('"' :: x) := by
  rintro ⟨c, rest, h⟩
  by_cases hc : c = '\\' ∨ c = '"'
  · simp [escapeChar, hc] at h
  · simp only [escapeChar, hc, if_false, List.cons_append, List.cons.injEq] at h
    exact hc (.inr h.1.symm)

/-- A quoted name tells the name. -/
theorem quoted_tells : Tells (fun name => (quoted name).toList) id := by
  intro a b x y h
  simp only [toList_quoted, List.cons_append, List.append_assoc, List.nil_append] at h
  obtain ⟨hname, hend⟩ :=
    escapeChar_tells.rows (not_starts_quote x) (not_starts_quote y) (List.cons.inj h).2
  rw [List.map_id, List.map_id] at hname
  exact ⟨String.toList_inj.mp hname, (List.cons.inj hend).2⟩

/-- Digits tell their number and where they end. -/
theorem digits_inj {m n : Nat} {c d : Char} {x y : List Char} (hc : c.isDigit = false)
    (hd : d.isDigit = false) (h : Nat.toDigits 10 m ++ c :: x = Nat.toDigits 10 n ++ d :: y) :
    m = n ∧ c :: x = d :: y := by
  have htake {n : Nat} {c : Char} {x : List Char} (hc : c.isDigit = false) :
      (Nat.toDigits 10 n ++ c :: x).takeWhile Char.isDigit = Nat.toDigits 10 n := by
    apply Text.takeWhile_isDigit_append
    · exact fun d hd => Text.isDigit_of_mem_digits hd
    · simp [hc]
  have hdigits : Nat.toDigits 10 m = Nat.toDigits 10 n := by rw [← htake hc, h, htake hd]
  rw [hdigits] at h
  exact ⟨by rw [← Text.natOf_digits m, hdigits, Text.natOf_digits], List.append_cancel_left h⟩

/-- A number tells itself in front of a text that starts with no digit. -/
theorem number_tells {c : Char} (hc : c.isDigit = false) (tail : List Char) :
    Tells (fun n => Nat.toDigits 10 n ++ c :: tail) id := by
  intro m n x y h
  simp only [List.append_assoc, List.cons_append] at h
  obtain ⟨hnumber, hrest⟩ := digits_inj hc hc h
  exact ⟨hnumber, List.append_cancel_left (List.cons.inj hrest).2⟩

/-- The lines of a graph stand between the lines of its title and a closing brace. -/
theorem exists_toList_digraph (title : String) :
    ∃ opening, ∀ lines : List String,
      (digraph title lines).toList = opening ++ (lines.flatMap written ++ ['}', '\n']) := by
  refine ⟨[s!"digraph {quoted title} \x7b", s!"  label={quoted title};", "  fontsize=20;"].flatMap
    written, fun lines => ?_⟩
  have hline (line : String) : (line ++ "\n").toList = written line := by simp [written]
  have hbrace : written "\x7d" = ['}', '\n'] := by simp [written]
  simp only [digraph, String.toList_join, List.flatMap_map, hline, List.flatMap_append,
    List.append_assoc, List.flatMap_singleton, hbrace]

theorem toString_text (text : String) : toString text = text := rfl

end Dot

open Dot

namespace DefinitionGraph

theorem written_outputLine (name : String) :
    written (outputLine name) = "  ".toList ++
      ((quoted name).toList ++ " [shape=Mdiamond];\n".toList) := by
  simp [written, outputLine, toString_text]

theorem written_edgeLine (e : Edge String) :
    written (edgeLine e) = "  ".toList ++ (((quoted e.source).toList ++ " -> ".toList) ++
      ((quoted e.target).toList ++ ";\n".toList)) := by
  simp [written, edgeLine, toString_text]

/-- The lines of a group in front of its names. -/
def groupLead (group : DefinitionGroup) : List Char :=
  (groupLines group .empty).dropLast.flatMap written

/-- The line of a member of a group. -/
def memberLine (name : String) : String := s!"    {quoted name};"

theorem written_memberLine (name : String) :
    written (memberLine name) = "    ".toList ++ ((quoted name).toList ++ ";\n".toList) := by
  simp [written, memberLine, toString_text]

theorem written_groupLines (group : DefinitionGroup) (names : OrderedSet String) :
    (groupLines group names).flatMap written = groupLead group ++
      (names.toList.flatMap (fun name => written (memberLine name)) ++ "  \x7d\n".toList) := by
  have hmember (name : String) : s!"    {quoted name};" = memberLine name := rfl
  have hbrace : written "  \x7d" = "  \x7d\n".toList := by simp [written]
  simp only [groupLead, groupLines, OrderedSet.empty, List.map_nil, List.append_nil,
    List.dropLast_concat, List.flatMap_append, List.flatMap_map, hmember, List.flatMap_singleton,
    hbrace, List.append_assoc]

theorem outputLine_tells : Tells (fun name => written (outputLine name)) id := by
  simp only [written_outputLine]
  exact (quoted_tells.before _).behind _

theorem memberLine_tells : Tells (fun name => written (memberLine name)) id := by
  simp only [written_memberLine]
  exact (quoted_tells.before _).behind _

theorem edgeLine_tells : Tells (fun e => written (edgeLine e)) id := by
  simp only [written_edgeLine]
  have hends := ((quoted_tells.before " -> ".toList).comp Edge.source).append
    ((quoted_tells.before ";\n".toList).comp Edge.target)
  exact (hends.behind _).map fun ends => Edge.mk ends.1 ends.2

theorem groupLead_tells : Tells groupLead id := by
  intro a b x y h
  by_cases hab : a = b
  · subst hab
    exact ⟨rfl, List.append_cancel_left h⟩
  · cases a <;> cases b <;> first
      | exact absurd rfl hab
      | simp [groupLead, groupLines, written, DefinitionGroup.cluster, OrderedSet.empty,
          toString_text] at h

/-- The line that ends a group is no line of a member. -/
theorem not_starts_member (x : List Char) :
    ¬ Starts (fun name => written (memberLine name)) ("  \x7d\n".toList ++ x) := by
  rintro ⟨name, rest, h⟩
  simp [written_memberLine] at h

/-- The lines of a group tell the group and its names. -/
theorem group_tells : Tells (fun e : DefinitionGroup × OrderedSet String =>
    (groupLines e.1 e.2).flatMap written) id := by
  rintro ⟨a, names⟩ ⟨b, others⟩ x y h
  simp only [written_groupLines, List.append_assoc] at h
  obtain ⟨hgroup, hrest⟩ := groupLead_tells h
  obtain ⟨hnames, hend⟩ := memberLine_tells.rows (not_starts_member x) (not_starts_member y) hrest
  rw [List.map_id, List.map_id] at hnames
  exact ⟨Prod.ext hgroup (OrderedSet.ext hnames), List.append_cancel_left hend⟩

theorem exists_groupLines (e : DefinitionGroup × OrderedSet String) :
    ∃ rest, (groupLines e.1 e.2).flatMap written = ' ' :: ' ' :: 's' :: rest := by
  simp [groupLines, written, toString_text]

/-- What stands behind the edges is no edge. -/
theorem not_starts_edge : ¬ Starts (fun e => written (edgeLine e)) ['}', '\n'] := by
  rintro ⟨e, rest, h⟩
  simp [written_edgeLine] at h

/-- What stands behind the groups is no group. -/
theorem not_starts_group (edges : List (Edge String)) :
    ¬ Starts (fun e : DefinitionGroup × OrderedSet String => (groupLines e.1 e.2).flatMap written)
      (edges.flatMap (fun e => written (edgeLine e)) ++ ['}', '\n']) := by
  rintro ⟨group, rest, h⟩
  obtain ⟨lines, hlines⟩ := exists_groupLines group
  cases edges with
  | nil => simp [hlines] at h
  | cons e edges => simp [hlines, written_edgeLine, toList_quoted] at h

/-- What stands behind the outputs is no output. -/
theorem not_starts_output (groups : List (DefinitionGroup × OrderedSet String))
    (edges : List (Edge String)) : ¬ Starts (fun name => written (outputLine name))
      (groups.flatMap (fun e => (groupLines e.1 e.2).flatMap written) ++
        (edges.flatMap (fun e => written (edgeLine e)) ++ ['}', '\n'])) := by
  rintro ⟨name, rest, h⟩
  cases groups with
  | cons group groups =>
    obtain ⟨lines, hlines⟩ := exists_groupLines group
    simp [hlines, written_outputLine, toList_quoted] at h
  | nil =>
    cases edges with
    | nil => simp [written_outputLine] at h
    | cons e edges =>
      -- the name that is quoted first is the same, but what follows it is not
      simp only [List.flatMap_nil, List.nil_append, List.flatMap_cons, written_outputLine,
        written_edgeLine, List.append_assoc] at h
      obtain ⟨-, htail⟩ := quoted_tells (List.append_cancel_left h)
      simp at htail

/-- A definition graph is determined by its text. -/
theorem toDot_inj {g h : DefinitionGraph} (he : g.toDot = h.toDot) : g = h := by
  obtain ⟨opening, hopening⟩ := exists_toList_digraph "Definition Dependency Graph"
  have hlists := congrArg String.toList he
  simp only [toDot, hopening, List.append_cancel_left_eq, List.flatMap_append, List.flatMap_map,
    List.flatMap_assoc, List.append_assoc] at hlists
  obtain ⟨houtputs, hrest⟩ :=
    outputLine_tells.rows (not_starts_output _ _) (not_starts_output _ _) hlists
  obtain ⟨hgroups, hrest⟩ := group_tells.rows (not_starts_group _) (not_starts_group _) hrest
  obtain ⟨hedges, -⟩ := edgeLine_tells.rows not_starts_edge not_starts_edge hrest
  rw [List.map_id, List.map_id] at houtputs hgroups hedges
  have hgroups : g.groups = h.groups := OrderedMap.ext hgroups
  have houtputs : g.outputs = h.outputs := OrderedSet.ext houtputs
  have hedges : g.edges = h.edges := OrderedSet.ext hedges
  cases g
  cases h
  simp only at hgroups houtputs hedges
  rw [hgroups, houtputs, hedges]

end DefinitionGraph

namespace StatementGraph

theorem written_nodeLine (n : StatementNode) :
    written (nodeLine n) = "  n".toList ++ ((Nat.toDigits 10 n.id ++ ' ' :: "[label=".toList) ++
      (((quoted n.label).toList ++ ", shape=".toList) ++
        ((shape n.kind).toList ++ "];\n".toList))) := by
  simp [written, nodeLine, toString_text, Nat.toString_eq_repr, Nat.repr]

theorem written_edgeLine (e : Edge Nat) :
    written (edgeLine e) = "  n".toList ++ ((Nat.toDigits 10 e.source ++ ' ' :: "-> n".toList) ++
      (Nat.toDigits 10 e.target ++ ';' :: "\n".toList)) := by
  simp [written, edgeLine, toString_text, Nat.toString_eq_repr, Nat.repr]

theorem shape_tells : Tells (fun kind => (shape kind).toList ++ "];\n".toList) shape := by
  intro a b x y h
  by_cases hab : shape a = shape b
  · simp only [hab] at h
    exact ⟨hab, List.append_cancel_left h⟩
  · cases a <;> cases b <;> first
      | exact absurd rfl hab
      | simp [shape] at h

theorem nodeLine_tells :
    Tells (fun n => written (nodeLine n)) fun n => (n.id, n.label, shape n.kind) := by
  simp only [written_nodeLine]
  exact (((number_tells (by decide) "[label=".toList).comp StatementNode.id).append
    (((quoted_tells.before _).comp StatementNode.label).append
      (shape_tells.comp StatementNode.kind))).behind _

theorem edgeLine_tells : Tells (fun e => written (edgeLine e)) id := by
  simp only [written_edgeLine]
  have hends := ((number_tells (c := ' ') rfl "-> n".toList).comp Edge.source).append
    ((number_tells (c := ';') rfl "\n".toList).comp Edge.target)
  exact (hends.behind _).map fun ends => Edge.mk ends.1 ends.2

/-- What stands behind the edges is no edge. -/
theorem not_starts_edge : ¬ Starts (fun e => written (edgeLine e)) ['}', '\n'] := by
  rintro ⟨e, rest, h⟩
  simp [written_edgeLine] at h

/-- What stands behind the nodes is no node. -/
theorem not_starts_node (edges : List (Edge Nat)) : ¬ Starts (fun n => written (nodeLine n))
    (edges.flatMap (fun e => written (edgeLine e)) ++ ['}', '\n']) := by
  rintro ⟨n, rest, h⟩
  cases edges with
  | nil => simp [written_nodeLine] at h
  | cons e edges =>
    -- both lines start with a number, and only an arrow follows that of an edge
    simp only [List.flatMap_cons, written_nodeLine, written_edgeLine, List.append_assoc,
      List.cons_append] at h
    obtain ⟨-, htail⟩ := digits_inj (by decide) (by decide) (List.append_cancel_left h)
    simp at htail

/-- Statements of different rule-shaped kinds are drawn with different shapes. -/
theorem shape_inj {k l : StatementKind} (hk : k.isRuleShaped = true) (hl : l.isRuleShaped = true)
    (h : shape k = shape l) : k = l := by
  cases k <;> cases l <;> simp [shape, StatementKind.isRuleShaped] at hk hl h ⊢

/-- A statement graph is determined by its text, up to what its text leaves out. -/
theorem toDot_tells {g h : StatementGraph} (he : g.toDot = h.toDot) :
    g.nodes.map (fun n => (n.id, n.label, shape n.kind)) =
      h.nodes.map (fun n => (n.id, n.label, shape n.kind)) ∧ g.edges = h.edges := by
  obtain ⟨opening, hopening⟩ := exists_toList_digraph "Statement Dependency Graph"
  have hlists := congrArg String.toList he
  simp only [toDot, hopening, List.append_cancel_left_eq, List.flatMap_append, List.flatMap_map,
    List.append_assoc] at hlists
  obtain ⟨hnodes, hrest⟩ := nodeLine_tells.rows (not_starts_node _) (not_starts_node _) hlists
  obtain ⟨hedges, -⟩ := edgeLine_tells.rows not_starts_edge not_starts_edge hrest
  rw [List.map_id, List.map_id] at hedges
  exact ⟨hnodes, OrderedSet.ext hedges⟩

/-- Every node of a graph that was built is that of a rule-shaped statement. -/
theorem isRuleShaped_of_mem_build {ss : List Statement} {n : StatementNode}
    (h : n ∈ (build ss).nodes) : n.kind.isRuleShaped = true := by
  obtain ⟨⟨s, id⟩, hs, rfl⟩ := List.mem_map.mp h
  exact (List.mem_filter.mp (List.fst_mem_of_mem_zipIdx hs)).2

/-- What the text of a graph shows of a node. -/
def shown (n : StatementNode) : Nat × String × StatementKind := (n.id, n.label, n.kind)

/-- Rule-shaped nodes that are drawn alike are shown alike. -/
theorem shown_of_drawn {ms ns : List StatementNode} (hm : ∀ n ∈ ms, n.kind.isRuleShaped = true)
    (hn : ∀ n ∈ ns, n.kind.isRuleShaped = true)
    (h : ms.map (fun n => (n.id, n.label, shape n.kind)) =
      ns.map fun n => (n.id, n.label, shape n.kind)) : ms.map shown = ns.map shown := by
  induction ms generalizing ns with
  | nil =>
    cases ns with
    | nil => rfl
    | cons n ns => cases h
  | cons m ms ih =>
    cases ns with
    | nil => cases h
    | cons n ns =>
      rw [List.forall_mem_cons] at hm hn
      simp only [List.map_cons, List.cons.injEq, Prod.mk.injEq] at h
      obtain ⟨⟨hid, hlabel, hshape⟩, hrest⟩ := h
      have hkind : m.kind = n.kind := shape_inj hm.1 hn.1 hshape
      rw [List.map_cons, List.map_cons, ih hm.2 hn.2 hrest, shown, shown, hid, hlabel, hkind]

/-- Graphs that show the same nodes and edges have one text. -/
theorem toDot_congr {g h : StatementGraph} (hnodes : g.nodes.map shown = h.nodes.map shown)
    (hedges : g.edges = h.edges) : g.toDot = h.toDot := by
  have hline : nodeLine =
      (fun (id, label, kind) => s!"  n{id} [label={quoted label}, shape={shape kind}];") ∘
        shown := rfl
  rw [toDot, toDot, hline, ← List.map_map, ← List.map_map, hnodes, hedges]

end StatementGraph

/-- DOT text loses nothing of a definition graph, whatever its names are, and of the graph of some
statements neither the numbers, labels and kinds of its nodes, in their order, nor its edges. -/
theorem Dot.graphs_determined :
    (∀ g h : DefinitionGraph, g.toDot = h.toDot ↔ g = h) ∧
    ∀ ss ts : List Statement,
      (StatementGraph.build ss).toDot = (StatementGraph.build ts).toDot ↔
        (StatementGraph.build ss).nodes.map (fun n => (n.id, n.label, n.kind)) =
            (StatementGraph.build ts).nodes.map (fun n => (n.id, n.label, n.kind)) ∧
          (StatementGraph.build ss).edges = (StatementGraph.build ts).edges := by
  refine ⟨fun g h => ⟨DefinitionGraph.toDot_inj, congrArg _⟩, fun ss ts => ⟨fun he => ?_, ?_⟩⟩
  · obtain ⟨hdrawn, hedges⟩ := StatementGraph.toDot_tells he
    have hshown := StatementGraph.shown_of_drawn
      (fun _ => StatementGraph.isRuleShaped_of_mem_build)
      (fun _ => StatementGraph.isRuleShaped_of_mem_build) hdrawn
    exact ⟨hshown, hedges⟩
  · rintro ⟨hnodes, hedges⟩
    exact StatementGraph.toDot_congr hnodes hedges

/-- A name that looks like an edge stays one name. -/
example : Dot.quoted "a\" -> \"b" = "\"a\\\" -> \\\"b\"" := by decide

end AspAtlas
