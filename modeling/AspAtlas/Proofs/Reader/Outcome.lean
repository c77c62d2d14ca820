import AspAtlas.Proofs.Reader.Includes
/-!
What reading a program with its includes yields: the files of its include closure in depth-first
order with their statements put in place, or the first fault on the way.
-/
namespace AspAtlas

open Surface (Item)

/-- What reading a path yields depends on its components only. -/
def FileSystem.ReadsByComponents (fs : FileSystem) : Prop :=
  ∀ p q, p.components = q.components → fs.read p = fs.read q

/-- What is read at paths with the same components is one text. -/
def FileSystem.ReadsAlike (fs : FileSystem) : Prop :=
  ∀ p q s t, p.components = q.components → fs.read p = .ok s → fs.read q = .ok t → s = t

theorem FileSystem.ReadsByComponents.readsAlike {fs : FileSystem} (hfs : fs.ReadsByComponents) :
    fs.ReadsAlike := by
  intro p q s t h hs ht
  rw [hfs p q h, ht, Except.ok.injEq] at hs
  exact hs.symm

/-- The components of an include depend on those of the including file only. -/
theorem components_resolveInclude_congr {p q : Path} (h : p.components = q.components)
    (target : String) :
    (resolveInclude p target).components = (resolveInclude q target).components := by
  simp only [resolveInclude]
  cases hp : p.parent? with
  | none =>
    have hq : q.parent? = none := by rwa [Path.parent?_eq_none_iff, ← h, ← Path.parent?_eq_none_iff]
    rw [hq]
  | some parent =>
    cases hq : q.parent? with
    | none =>
      have hp' : p.parent? = none := by
        rwa [Path.parent?_eq_none_iff, h, ← Path.parent?_eq_none_iff]
      rw [hp'] at hp
      cases hp
    | some other =>
      have hsame : parent.components = other.components := by
        rw [Path.components_of_parent? hp, Path.components_of_parent? hq, h]
      simp only [Path.components_join, hsame]

namespace ProgramReader

variable (r : ProgramReader) (root : Path) (text : String)

/-- The text that a run finds at a path: at the root the one it was given, elsewhere the one that
can be read, if it is not too large. -/
inductive Holds : Path → String → Prop
  | root {p : Path} (hp : p.components = root.components) : Holds p text
  | read {p : Path} {t : String} (hp : p.components ≠ root.components)
      (hread : r.fileSystem.read p = .ok t) (hsize : t.utf8ByteSize ≤ r.maxFileSize) : Holds p t

/-- The include closure of a root: the targets of includes in files that are programs. -/
inductive Closure : Path → Prop
  | root : Closure root
  | includes {p : Path} {t : String} {items : List Item} {target : String} {location : Location}
      (hp : Closure p) (ht : r.Holds root text p t) (hparse : parseItems p t = .ok items)
      (hi : .includes target location ∈ items) : Closure (resolveInclude p target)

/-- A path is accepted when the text that it holds is a program. -/
def Accepts (p : Path) : Prop := ∃ t items, r.Holds root text p t ∧ parseItems p t = .ok items

/-- What is wrong with an include, and how that is reported. -/
inductive Fault (v : Inclusion) : Error → Prop
  | unreadable {cause : IoCause} (h : r.fileSystem.read v.included = .error cause) :
      Fault v (.includes v.file v.included (.io cause))
  | tooLarge {t : String} (h : r.fileSystem.read v.included = .ok t)
      (hsize : r.maxFileSize < t.utf8ByteSize) :
      Fault v (.includes v.file v.included (.parse v.included (.tooLarge r.maxFileSize)))
  | unparsed {t : String} {cause : ParseCause} (h : r.fileSystem.read v.included = .ok t)
      (hsize : t.utf8ByteSize ≤ r.maxFileSize)
      (hparse : parseItems v.included t = .error (.parse v.included cause)) :
      Fault v (.parse v.included cause)

/-- What was read is the traversal of the root: its files in the order in which they are reached,
and their statements in place. -/
structure Spliced (reached : List Inclusion) (nodes : List Node)
    (source : ParsedSource) : Prop where
  rooted : source.root = root
  spliced : source.nodes = nodes
  files : ∃ others, source.files = .ofText root text :: others ∧
    List.Forall₂ (fun (v : Inclusion) f => ∃ t, r.Holds root text v.included t ∧
      f = SourceFile.ofText v.included t) reached others
  distinct : source.files.Pairwise fun f g => f.path.components ≠ g.path.components
  inClosure : ∀ f ∈ source.files, r.Closure root text f.path
  statements : ∀ f ∈ source.files, ∃ t items, r.Holds root text f.path t ∧
    f = .ofText f.path t ∧ parseItems f.path t = .ok items ∧
    (source.nodes.filter fun n => n.location.isIn f.path) = statementsOf items ∧
    ∀ n ∈ statementsOf items, ∀ m ∈ n.visit fun _ => true, m.location.file = f.path
  located : ∀ n ∈ source.nodes, ∃ f ∈ source.files, n.location.file = f.path

/-- The fault of the first file on the way that is not accepted. -/
def FirstFault (reached : List Inclusion) (e : Error) : Prop :=
  ∃ before v behind, reached = before ++ v :: behind ∧
    (∀ w ∈ before, r.Accepts root text w.included) ∧ r.Fault v e

variable {r root text} {items : List Item} {reached : List Inclusion} {nodes : List Node}

theorem fault_of_fault? {v : Inclusion} {e : Error} (h : r.fault? v = some e) : r.Fault v e := by
  simp only [fault?, content] at h
  cases hread : r.fileSystem.read v.included with
  | error cause =>
    simp only [hread, Option.some.injEq] at h
    subst h
    exact .unreadable hread
  | ok t =>
    by_cases hsize : r.maxFileSize < t.utf8ByteSize
    · simp only [hread, gt_iff_lt, hsize, if_true, Option.some.injEq] at h
      subst h
      exact .tooLarge hread hsize
    · simp only [hread, gt_iff_lt, hsize, if_false] at h
      cases hparse : parseItems v.included t with
      | ok items => simp [hparse] at h
      | error cause =>
        simp only [hparse, Option.some.injEq] at h
        subst h
        obtain ⟨cause, rfl⟩ := parseItems_error hparse
        exact .unparsed hread (Nat.le_of_not_lt hsize) hparse

theorem content_eq_ok_iff {p : Path} {t : String} :
    r.content p = .ok t ↔ r.fileSystem.read p = .ok t ∧ t.utf8ByteSize ≤ r.maxFileSize := by
  constructor
  · intro h
    have hread := read_of_content h
    refine ⟨hread, ?_⟩
    by_contra hlarge
    simp [content, hread, Nat.lt_of_not_le hlarge] at h
  · rintro ⟨hread, hsize⟩
    simp [content, hread, Nat.not_lt.mpr hsize]

/-- A file without fault is read and parsed, and has the items that the traversal takes for its. -/
theorem read_of_fault?_eq_none {v : Inclusion} (h : r.fault? v = none) :
    ∃ t, r.fileSystem.read v.included = .ok t ∧ t.utf8ByteSize ≤ r.maxFileSize ∧
      parseItems v.included t = .ok (r.itemsOf v.included) ∧
      r.source? v = some (.ofText v.included t) := by
  simp only [fault?] at h
  cases hc : r.content v.included with
  | error cause => simp [hc] at h
  | ok t =>
    obtain ⟨hread, hsize⟩ := content_eq_ok_iff.mp hc
    simp only [hc] at h
    cases hparse : parseItems v.included t with
    | error cause => simp [hparse] at h
    | ok items => exact ⟨t, hread, hsize, by simp [itemsOf, hc, hparse], by simp [source?, hc]⟩

theorem fault?_eq_none_of_accepts {v : Inclusion} (hv : v.key ≠ root.components)
    (h : r.Accepts root text v.included) : r.fault? v = none := by
  obtain ⟨t, items, ht, hparse⟩ := h
  cases ht with
  | root hp => exact absurd hp hv
  | read _ hread hsize =>
    have hc := content_eq_ok_iff.mpr ⟨hread, hsize⟩
    simp [fault?, hc, hparse]

theorem parse_of_mem_itemsOf {p : Path} {item : Item} (h : item ∈ r.itemsOf p) :
    ∃ t, r.content p = .ok t ∧ parseItems p t = .ok (r.itemsOf p) := by
  cases hc : r.content p with
  | error cause => simp [itemsOf, hc] at h
  | ok t =>
    cases hparse : parseItems p t with
    | error cause => simp [itemsOf, hc, hparse] at h
    | ok items => exact ⟨t, rfl, by simp [itemsOf, hc, hparse]⟩

/-- The statements that a traversal finds stand in the file that they were read from. -/
theorem file_of_mem_itemsOf {p : Path} {n m : Node} (h : .statement n ∈ r.itemsOf p)
    {enter : Node → Bool} (hm : m ∈ n.visit enter) : m.location.file = p := by
  obtain ⟨t, -, hparse⟩ := parse_of_mem_itemsOf h
  exact file_of_mem_parseItems hparse h hm

theorem self_mem_visit (n : Node) (enter : Node → Bool) : n ∈ n.visit enter := by
  rw [Node.visit_eq]
  exact List.mem_cons_self

/-- Include targets do not depend on the path under which a text is parsed. -/
theorem includes_mem_of_parse {p q : Path} {items others : List Item}
    {target : String} {location : Location} (hp : parseItems p text = .ok items)
    (hq : parseItems q text = .ok others) (h : .includes target location ∈ items) :
    ∃ location', .includes target location' ∈ others := by
  rw [parseItems_relocate hp q, Except.ok.injEq] at hq
  subst hq
  exact ⟨_, List.mem_map_of_mem h⟩

theorem path_of_source? {v : Inclusion} {f : SourceFile} (h : r.source? v = some f) :
    f.path = v.included := by
  simp only [source?] at h
  split at h
  · cases h
  · simp only [Option.some.injEq] at h
    rw [← h]
    rfl

section Clean

variable (hfs : r.fileSystem.ReadsByComponents) (hparse : parseItems root text = .ok items)
  (h : Traverses r.itemsOf [root.components] root items reached nodes)

include hparse h

theorem closure_of_reached : ∀ v ∈ reached, r.Closure root text v.included := by
  refine h.reached_induction (P := r.Closure root text) ?_ ?_
  · intro p hnew hp target location hm
    obtain ⟨t, hc, hitems⟩ := parse_of_mem_itemsOf hm
    obtain ⟨hread, hsize⟩ := content_eq_ok_iff.mp hc
    have hroot : p.components ≠ root.components := by simpa using hnew
    exact .includes hp (.read hroot hread hsize) hitems hm
  · intro target location hm
    exact .includes .root (.root rfl) hparse hm

/-- Without faults, everything in the closure is the root or was reached. -/
theorem reached_of_closure (hfs : r.fileSystem.ReadsAlike)
    (hclean : ∀ v ∈ reached, r.fault? v = none) {p : Path} (hp : r.Closure root text p) :
    p.components = root.components ∨ ∃ v ∈ reached, v.key = p.components := by
  induction hp with
  | root => exact .inl rfl
  | @includes p t others target location hp ht hothers hi ih =>
    rcases ih with hroot | ⟨v, hv, hkey⟩
    · cases ht with
      | read hne _ _ => exact absurd hroot hne
      | root _ =>
        obtain ⟨location', hm⟩ := includes_mem_of_parse hothers hparse hi
        rw [components_resolveInclude_congr hroot]
        simpa [eq_comm] using h.covers.1 target location' hm
    · have hne : p.components ≠ root.components := by
        intro he
        exact h.fresh.1 v hv (by simp [hkey, he])
      cases ht with
      | root he => exact absurd he hne
      | read _ hread hsize =>
        obtain ⟨t', hread', -, hitems, -⟩ := read_of_fault?_eq_none (hclean v hv)
        obtain rfl := hfs _ _ _ _ hkey hread' hread
        obtain ⟨location', hm⟩ := includes_mem_of_parse hothers hitems hi
        rw [components_resolveInclude_congr hkey.symm]
        simpa [eq_comm] using h.covers.2 v hv target location' hm

include hfs

theorem accepts_of_closure (hclean : ∀ v ∈ reached, r.fault? v = none) {p : Path}
    (hp : r.Closure root text p) : r.Accepts root text p := by
  by_cases hroot : p.components = root.components
  · exact ⟨text, _, .root hroot, parseItems_relocate hparse p⟩
  · obtain ⟨v, hv, hkey⟩ :=
      (reached_of_closure hparse h hfs.readsAlike hclean hp).resolve_left hroot
    obtain ⟨t, hread, hsize, hitems, -⟩ := read_of_fault?_eq_none (hclean v hv)
    rw [hfs _ _ hkey] at hread
    exact ⟨t, _, .read hroot hread hsize, parseItems_relocate hitems p⟩

end Clean

theorem sources_of_clean (hfresh : ∀ v ∈ reached, v.key ≠ root.components)
    (hclean : ∀ v ∈ reached, r.fault? v = none) :
    List.Forall₂ (fun (v : Inclusion) f => ∃ t, r.Holds root text v.included t ∧
      f = SourceFile.ofText v.included t) reached (reached.filterMap r.source?) := by
  induction reached with
  | nil => exact .nil
  | cons v rest ih =>
    obtain ⟨t, hread, hsize, -, hsource⟩ := read_of_fault?_eq_none (hclean v List.mem_cons_self)
    rw [List.filterMap_cons_some hsource]
    refine .cons ⟨t, .read (hfresh v List.mem_cons_self) hread hsize, rfl⟩ (ih ?_ ?_)
    · intro w hw
      exact hfresh w (List.mem_cons_of_mem _ hw)
    · intro w hw
      exact hclean w (List.mem_cons_of_mem _ hw)

theorem mem_sources {f : SourceFile} (hclean : ∀ v ∈ reached, r.fault? v = none) :
    f ∈ reached.filterMap r.source? ↔ ∃ v ∈ reached, ∃ t, r.fileSystem.read v.included = .ok t ∧
      t.utf8ByteSize ≤ r.maxFileSize ∧ parseItems v.included t = .ok (r.itemsOf v.included) ∧
      f = .ofText v.included t := by
  rw [List.mem_filterMap]
  constructor
  · rintro ⟨v, hv, hf⟩
    obtain ⟨t, hread, hsize, hitems, hsource⟩ := read_of_fault?_eq_none (hclean v hv)
    rw [hsource, Option.some.injEq] at hf
    exact ⟨v, hv, t, hread, hsize, hitems, hf.symm⟩
  · rintro ⟨v, hv, t, hread, -, -, rfl⟩
    obtain ⟨t', hread', -, -, hsource⟩ := read_of_fault?_eq_none (hclean v hv)
    rw [hread, Except.ok.injEq] at hread'
    subst hread'
    exact ⟨v, hv, hsource⟩

/-- A traversal without faults is what reading yields. -/
theorem spliced_of_clean (hparse : parseItems root text = .ok items)
    (h : Traverses r.itemsOf [root.components] root items reached nodes)
    (hclean : ∀ v ∈ reached, r.fault? v = none) :
    r.Spliced root text reached nodes
      ⟨root, nodes, .ofText root text :: reached.filterMap r.source?⟩ := by
  have hlocated : ∀ p n, .statement n ∈ r.itemsOf p → n.location.file = p := by
    intro p n hn
    exact file_of_mem_itemsOf hn (self_mem_visit n fun _ => true)
  have hown : ∀ n, .statement n ∈ items → n.location.file = root := by
    intro n hn
    exact file_of_mem_parseItems hparse hn (self_mem_visit n fun _ => true)
  have hclosure := closure_of_reached hparse h
  obtain ⟨hfresh, hdistinct⟩ := h.fresh
  have hfresh : ∀ v ∈ reached, v.key ≠ root.components := by
    intro v hv
    simpa using hfresh v hv
  refine ⟨rfl, rfl, ⟨_, rfl, sources_of_clean hfresh hclean⟩, ?_, ?_, ?_, ?_⟩
  · apply List.pairwise_cons.mpr
    constructor
    · intro f hf he
      obtain ⟨v, hv, t, -, -, -, rfl⟩ := (mem_sources hclean).mp hf
      exact hfresh v hv he.symm
    · refine hdistinct.filterMap _ fun v w hvw f hf g hg he => ?_
      exact hvw (by rwa [path_of_source? hf, path_of_source? hg] at he)
  · intro f hf
    rcases List.mem_cons.mp hf with rfl | hf
    · exact .root
    · obtain ⟨v, hv, t, -, -, -, rfl⟩ := (mem_sources hclean).mp hf
      exact hclosure v hv
  · intro f hf
    rcases List.mem_cons.mp hf with rfl | hf
    · refine ⟨text, items, .root rfl, rfl, hparse, ?_, ?_⟩
      · have hnodes := h.nodes_in_seen hlocated hown (List.mem_singleton_self root.components)
        rw [if_pos rfl] at hnodes
        exact hnodes
      · intro n hn m hm
        exact file_of_mem_parseItems hparse (mem_statementsOf.mp hn) hm
    · obtain ⟨v, hv, t, hread, hsize, hitems, rfl⟩ := (mem_sources hclean).mp hf
      refine ⟨t, _, .read (hfresh v hv) hread hsize, rfl, hitems, ?_, ?_⟩
      · exact h.nodes_in_reached hlocated hown (List.mem_singleton_self _) hv
      · intro n hn m hm
        exact file_of_mem_itemsOf (mem_statementsOf.mp hn) hm
  · intro n hn
    rcases h.mem_nodes hn with hn | ⟨v, hv, hn⟩
    · exact ⟨_, List.mem_cons_self, hown n hn⟩
    · obtain ⟨t, hread, hsize, hitems, -⟩ := read_of_fault?_eq_none (hclean v hv)
      have hsource := (mem_sources hclean).mpr ⟨v, hv, t, hread, hsize, hitems, rfl⟩
      exact ⟨_, List.mem_cons_of_mem _ hsource, hlocated _ n hn⟩

/-- What a run has yielded is the traversal of its root. -/
theorem spliced_of_readText {source : ParsedSource} (hsource : r.readText root text = .ok source) :
    ∃ items reached nodes, parseItems root text = .ok items ∧
      Traverses r.itemsOf [root.components] root items reached nodes ∧
      (∀ v ∈ reached, r.fault? v = none) ∧
      source.files = .ofText root text :: reached.filterMap r.source? ∧
      r.Spliced root text reached nodes source := by
  cases hparse : parseItems root text with
  | error e => simp [readText, hparse] at hsource
  | ok items =>
    obtain ⟨reached, nodes, h⟩ := exists_traverses r [root.components] root items
    rw [readText_eq hparse h] at hsource
    cases hfault : reached.findSome? r.fault? with
    | some e => simp [hfault] at hsource
    | none =>
      simp only [hfault, Except.ok.injEq] at hsource
      subst hsource
      have hclean := List.findSome?_eq_none_iff.mp hfault
      exact ⟨items, reached, nodes, rfl, h, hclean, rfl, spliced_of_clean hparse h hclean⟩

theorem firstFault_of_findSome? {e : Error} (hfresh : ∀ v ∈ reached, v.key ≠ root.components)
    (h : reached.findSome? r.fault? = some e) : r.FirstFault root text reached e := by
  obtain ⟨before, v, behind, rfl, hv, hbefore⟩ := List.findSome?_eq_some_iff.mp h
  refine ⟨before, v, behind, rfl, ?_, fault_of_fault? hv⟩
  intro w hw
  obtain ⟨t, hread, hsize, hitems, -⟩ := read_of_fault?_eq_none (hbefore w hw)
  exact ⟨t, _, .read (hfresh w (List.mem_append_left _ hw)) hread hsize, hitems⟩

theorem exists_spliced {source : ParsedSource} (hsource : r.readText root text = .ok source) :
    ∃ reached nodes, r.Spliced root text reached nodes source := by
  obtain ⟨_, reached, nodes, -, -, -, -, hspliced⟩ := spliced_of_readText hsource
  exact ⟨reached, nodes, hspliced⟩

theorem root_mem_files {source : ParsedSource} (hsource : r.readText root text = .ok source) :
    SourceFile.ofText root text ∈ source.files := by
  obtain ⟨_, _, _, -, -, -, hfiles, -⟩ := spliced_of_readText hsource
  rw [hfiles]
  exact List.mem_cons_self

/-- What is read has a closure in which everything is accepted. -/
theorem accepts_of_readText (hfs : r.fileSystem.ReadsByComponents) {source : ParsedSource}
    (hsource : r.readText root text = .ok source) {p : Path} (hp : r.Closure root text p) :
    r.Accepts root text p := by
  obtain ⟨items, reached, nodes, hparse, h, hclean, -, -⟩ := spliced_of_readText hsource
  exact accepts_of_closure hfs hparse h hclean hp

/-- A text is read when everything in its closure is accepted. -/
theorem readText_of_accepts (h : ∀ p, r.Closure root text p → r.Accepts root text p) :
    ∃ source, r.readText root text = .ok source := by
  obtain ⟨t, items, ht, hparse⟩ := h root .root
  cases ht with
  | read hne _ _ => exact absurd rfl hne
  | root _ =>
    obtain ⟨reached, nodes, htraverses⟩ := exists_traverses r [root.components] root items
    have hclean : reached.findSome? r.fault? = none := by
      refine List.findSome?_eq_none_iff.mpr fun v hv => ?_
      have hkey : v.key ≠ root.components := by simpa using htraverses.fresh.1 v hv
      exact fault?_eq_none_of_accepts hkey (h _ (closure_of_reached hparse htraverses v hv))
    rw [readText_eq hparse htraverses, hclean]
    exact ⟨_, rfl⟩

/-- Every path in the closure of what is read has its file among those that were read. -/
theorem exists_file_of_readsAlike (hfs : r.fileSystem.ReadsAlike) {source : ParsedSource}
    (hsource : r.readText root text = .ok source) {p : Path} (hp : r.Closure root text p) :
    ∃ f ∈ source.files, f.path.components = p.components := by
  obtain ⟨items, reached, nodes, hparse, h, hclean, hfiles, -⟩ := spliced_of_readText hsource
  rw [hfiles]
  rcases reached_of_closure hparse h hfs hclean hp with hroot | ⟨v, hv, hkey⟩
  · exact ⟨_, List.mem_cons_self, hroot.symm⟩
  · obtain ⟨t, hread, hsize, hitems, -⟩ := read_of_fault?_eq_none (hclean v hv)
    have hmem := (mem_sources hclean).mpr ⟨v, hv, t, hread, hsize, hitems, rfl⟩
    exact ⟨_, List.mem_cons_of_mem _ hmem, hkey⟩

theorem exists_file_of_closure (hfs : r.fileSystem.ReadsByComponents) {source : ParsedSource}
    (hsource : r.readText root text = .ok source) {p : Path} (hp : r.Closure root text p) :
    ∃ f ∈ source.files, f.path.components = p.components :=
  exists_file_of_readsAlike hfs.readsAlike hsource hp

/-- Reading is a depth-first traversal of the include graph. It succeeds exactly when everything in
the include closure is accepted, and then yields the files in the order in which they are reached,
with their statements in place. Otherwise it fails with the first fault in that order; the root
comes first of all. -/
theorem readText_depth_first (hfs : r.fileSystem.ReadsByComponents) (root : Path) (text : String) :
    ((∃ source, r.readText root text = .ok source) ↔
      ∀ p, r.Closure root text p → r.Accepts root text p) ∧
    (∀ e, parseItems root text = .error e →
      r.readText root text = .error e ∧ ∃ cause, e = .parse root cause) ∧
    ∀ items, parseItems root text = .ok items →
      ∃ reached nodes, Traverses r.itemsOf [root.components] root items reached nodes ∧
        (∀ reached' nodes', Traverses r.itemsOf [root.components] root items reached' nodes' →
          reached' = reached ∧ nodes' = nodes) ∧
        (∀ source, r.readText root text = .ok source →
          r.Spliced root text reached nodes source ∧
            ∀ p, r.Closure root text p → ∃ f ∈ source.files, f.path.components = p.components) ∧
        ∀ e, r.readText root text = .error e → r.FirstFault root text reached e := by
  refine ⟨⟨?_, readText_of_accepts⟩, ?_, ?_⟩
  · rintro ⟨source, hsource⟩ p hp
    exact accepts_of_readText hfs hsource hp
  · intro e he
    exact ⟨by simp [readText, he], parseItems_error he⟩
  · intro items hparse
    obtain ⟨reached, nodes, h⟩ := exists_traverses r [root.components] root items
    refine ⟨reached, nodes, h, fun _ _ h' => h.unique h', ?_, ?_⟩
    · intro source hsource
      obtain ⟨items', reached', nodes', hparse', h', -, -, hspliced⟩ := spliced_of_readText hsource
      rw [hparse, Except.ok.injEq] at hparse'
      subst hparse'
      obtain ⟨rfl, rfl⟩ := h.unique h'
      exact ⟨hspliced, fun p hp => exists_file_of_closure hfs hsource hp⟩
    · intro e he
      rw [readText_eq hparse h] at he
      cases hfault : reached.findSome? r.fault? with
      | none => simp [hfault] at he
      | some e' =>
        simp only [hfault, Except.error.injEq] at he
        subst he
        refine firstFault_of_findSome? ?_ hfault
        intro v hv
        simpa using h.fresh.1 v hv

end ProgramReader

/-- A file system of named texts. -/
def FileSystem.ofFiles (files : List (Path × String)) : FileSystem where
  isFile p := files.any fun f => f.1 == p
  read p :=
    match files.find? fun f => f.1 == p with
    | some f => .ok f.2
    | none => .error .notFound
  finite := by
    refine ⟨files.map fun f => f.1.components, fun p text h => ?_⟩
    split at h
    · rename_i f hf
      have hsame : f.1.components = p.components := by
        have hfound := List.find?_some hf
        exact Path.beq_iff.mp hfound
      exact List.mem_map.mpr ⟨f, List.mem_of_find?_eq_some hf, hsame⟩
    · cases h

theorem FileSystem.ofFiles_readsByComponents (files : List (Path × String)) :
    (FileSystem.ofFiles files).ReadsByComponents := by
  intro p q h
  have hsame : (fun f : Path × String => f.1 == p) = fun f => f.1 == q := by
    funext f
    rw [Bool.eq_iff_iff, Path.beq_iff, Path.beq_iff, h]
  simp only [ofFiles, hsame]

theorem FileSystem.isFile_ofFiles {files : List (Path × String)} {p : Path} {text : String}
    (h : (FileSystem.ofFiles files).read p = .ok text) :
    (FileSystem.ofFiles files).isFile p = true := by
  simp only [ofFiles] at h ⊢
  cases hf : files.find? fun f => f.1 == p with
  | none => simp [hf] at h
  | some f =>
    have hfound := List.find?_some hf
    exact List.any_eq_true.mpr ⟨f, List.mem_of_find?_eq_some hf, hfound⟩

/-- The include targets among some items. -/
def targetsOf (items : List Item) : List String :=
  items.filterMap fun
    | .statement _ => none
    | .includes target _ => some target

theorem mem_targetsOf {target : String} {items : List Item} :
    target ∈ targetsOf items ↔ ∃ location, .includes target location ∈ items := by
  rw [targetsOf, List.mem_filterMap]
  constructor
  · rintro ⟨item, hitem, h⟩
    cases item with
    | statement n => cases h
    | includes other location =>
      cases h
      exact ⟨location, hitem⟩
  · rintro ⟨location, h⟩
    exact ⟨_, h, rfl⟩

theorem traverses_of_targetsOf_eq_nil {itemsOf : Path → List Item} {seen : List (List Component)}
    {file : Path} {items : List Item} (h : targetsOf items = []) :
    Traverses itemsOf seen file items [] (statementsOf items) := by
  induction items with
  | nil => exact .done
  | cons item rest ih =>
    cases item with
    | statement n => exact .statement (ih h)
    | includes target location => cases h

/-- A text that includes nothing is read from itself alone. -/
theorem ProgramReader.readText_of_targetsOf_eq_nil (r : ProgramReader) {root : Path} {text : String}
    {items : List Item} (hparse : parseItems root text = .ok items) (h : targetsOf items = []) :
    r.readText root text = .ok ⟨root, statementsOf items, [.ofText root text]⟩ :=
  readText_eq hparse (traverses_of_targetsOf_eq_nil h)

namespace ProgramReader

variable {r : ProgramReader} {root : Path} {text : String} {files : List (Path × String)}

theorem Holds.unique {p : Path} {s t : String} (hs : r.Holds root text p s)
    (ht : r.Holds root text p t) : s = t := by
  cases hs with
  | root hp =>
    cases ht with
    | root _ => rfl
    | read hne _ _ => exact absurd hp hne
  | read hne hread _ =>
    cases ht with
    | root hp => exact absurd hp hne
    | read _ hread' _ =>
      rw [hread, Except.ok.injEq] at hread'
      exact hread'

theorem Closure.of_target {p q : Path} {t : String} (target : String) (hp : r.Closure root text p)
    (ht : r.Holds root text p t)
    (htarget : ((parseItems p t).toOption.map targetsOf).any (target ∈ ·) = true)
    (hq : (resolveInclude p target).text = q.text) : r.Closure root text q := by
  cases hparse : parseItems p t with
  | error cause => simp [hparse, Except.toOption] at htarget
  | ok items =>
    have hmem : target ∈ targetsOf items := by simpa [hparse, Except.toOption] using htarget
    obtain ⟨location, hi⟩ := mem_targetsOf.mp hmem
    have hpath : resolveInclude p target = q := congrArg Path.mk hq
    rw [← hpath]
    exact .includes hp ht hparse hi

/-- Whether the includes of some texts lead to paths among those of the texts. -/
def isClosed (files : List (Path × String)) : Bool :=
  files.all fun e =>
    match parseItems e.1 e.2 with
    | .ok items => (targetsOf items).all fun target =>
        files.any fun f => f.1.text == (resolveInclude e.1 target).text
    | .error _ => false

theorem exists_items_of_isClosed (h : isClosed files = true) {e : Path × String} (he : e ∈ files) :
    ∃ items, parseItems e.1 e.2 = .ok items ∧ ∀ target location, .includes target location ∈ items →
      ∃ f ∈ files, f.1 = resolveInclude e.1 target := by
  have hparse := List.all_eq_true.mp h e he
  cases hitems : parseItems e.1 e.2 with
  | error cause => simp [hitems] at hparse
  | ok items =>
    simp only [hitems, List.all_eq_true, List.any_eq_true, beq_iff_eq] at hparse
    refine ⟨items, rfl, fun target location hi => ?_⟩
    obtain ⟨f, hf, htext⟩ := hparse target (mem_targetsOf.mpr ⟨location, hi⟩)
    exact ⟨f, hf, congrArg Path.mk htext⟩

/-- The closure of one of some texts that are closed under includes is among them. -/
theorem mem_of_isClosed (h : isClosed files = true) (hroot : (root, text) ∈ files)
    (hfiles : ∀ e ∈ files, r.Holds root text e.1 e.2) {p : Path} (hp : r.Closure root text p) :
    ∃ t, (p, t) ∈ files := by
  induction hp with
  | root => exact ⟨text, hroot⟩
  | @includes p s others target location hp hs hothers hi ih =>
    obtain ⟨t, ht⟩ := ih
    obtain rfl := hs.unique (hfiles _ ht)
    obtain ⟨items, hitems, htargets⟩ := exists_items_of_isClosed h ht
    rw [hothers, Except.ok.injEq] at hitems
    subst hitems
    obtain ⟨⟨found, s⟩, hmem, rfl⟩ := htargets target location hi
    exact ⟨s, hmem⟩

/-- So all of it is accepted. -/
theorem accepts_of_isClosed (h : isClosed files = true) (hroot : (root, text) ∈ files)
    (hfiles : ∀ e ∈ files, r.Holds root text e.1 e.2) {p : Path} (hp : r.Closure root text p) :
    r.Accepts root text p := by
  obtain ⟨t, ht⟩ := mem_of_isClosed h hroot hfiles hp
  obtain ⟨items, hparse, -⟩ := exists_items_of_isClosed h ht
  exact ⟨t, items, hfiles _ ht, hparse⟩

/-- A run finds the texts that can be read. -/
theorem holds_of_files (hfs : r.fileSystem.ReadsAlike) (hroot : (root, text) ∈ files)
    (hread : ∀ e ∈ files, r.fileSystem.read e.1 = .ok e.2)
    (hsize : ∀ e ∈ files, e.2.utf8ByteSize ≤ r.maxFileSize) :
    ∀ e ∈ files, r.Holds root text e.1 e.2 := by
  intro e he
  by_cases hp : e.1.components = root.components
  · rw [hfs _ _ _ _ hp (hread e he) (hread (root, text) hroot)]
    exact .root hp
  · exact .read hp (hread e he) (hsize e he)

end ProgramReader

/-- Two files that include each other. -/
def cyclicFiles : List (Path × String) :=
  [(⟨"a.lp"⟩, "#include \"b.lp\". a."), (⟨"b.lp"⟩, "#include \"a.lp\". b.")]

theorem cyclicFiles_isClosed : ProgramReader.isClosed cyclicFiles = true := by
  decide +kernel

theorem cyclicFiles_readable {n : Nat} (hn : 100 ≤ n) :
    (∀ e ∈ cyclicFiles, (FileSystem.ofFiles cyclicFiles).read e.1 = .ok e.2) ∧
      ∀ e ∈ cyclicFiles, e.2.utf8ByteSize ≤ n := by
  constructor
  · simp only [cyclicFiles, List.forall_mem_cons]
    exact ⟨rfl, rfl, List.forall_mem_nil _⟩
  · have hsize : ∀ e ∈ cyclicFiles, e.2.utf8ByteSize ≤ 100 := by decide
    exact fun e he => Nat.le_trans (hsize e he) hn

/-- Everything in the closure of two files that include each other is accepted. -/
theorem ProgramReader.accepts_of_cycle {n : Nat} (hn : 100 ≤ n) (p : Path)
    (hp : (ProgramReader.mk (.ofFiles cyclicFiles) n).Closure ⟨"a.lp"⟩ "#include \"b.lp\". a." p) :
    (ProgramReader.mk (.ofFiles cyclicFiles) n).Accepts ⟨"a.lp"⟩ "#include \"b.lp\". a." p := by
  obtain ⟨hread, hsize⟩ := cyclicFiles_readable hn
  have hfs := (FileSystem.ofFiles_readsByComponents cyclicFiles).readsAlike
  exact accepts_of_isClosed cyclicFiles_isClosed List.mem_cons_self
    (holds_of_files hfs List.mem_cons_self hread hsize) hp

theorem ProgramReader.closure_of_cycle (r : ProgramReader) :
    r.Closure ⟨"a.lp"⟩ "#include \"b.lp\". a." ⟨"b.lp"⟩ :=
  Closure.root.of_target "b.lp" (.root rfl) (by decide +kernel) (by decide +kernel)

/-- Of two files that include each other, each can be read. -/
theorem ProgramReader.readText_depth_first_of_cycle :
    (FileSystem.ofFiles cyclicFiles).ReadsByComponents ∧
      ∃ source, (ProgramReader.mk (.ofFiles cyclicFiles) 100).readText ⟨"a.lp"⟩
        "#include \"b.lp\". a." = .ok source := by
  have hfs := FileSystem.ofFiles_readsByComponents cyclicFiles
  have hdepth := readText_depth_first (r := ⟨.ofFiles cyclicFiles, 100⟩) hfs ⟨"a.lp"⟩
    "#include \"b.lp\". a."
  exact ⟨hfs, hdepth.1.mpr (accepts_of_cycle (Nat.le_refl 100))⟩

end AspAtlas
