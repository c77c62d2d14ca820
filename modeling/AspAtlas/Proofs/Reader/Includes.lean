import AspAtlas.Proofs.Reader.Traversal
/-!
Following includes with a list of pending items is the depth-first traversal of the include graph:
both meet the same files in the same order, and reading stops at the first fault.
-/
namespace AspAtlas

open Surface (Item)

namespace ProgramReader

variable (r : ProgramReader)

/-- The items of a file; none if it cannot be read or is no program. -/
def itemsOf (p : Path) : List Item :=
  match r.content p with
  | .error _ => []
  | .ok text =>
    match parseItems p text with
    | .error _ => []
    | .ok items => items

/-- Why an include fails, if it does. -/
def fault? (v : Inclusion) : Option Error :=
  match r.content v.included with
  | .error cause => some (.includes v.file v.included cause)
  | .ok text =>
    match parseItems v.included text with
    | .error cause => some cause
    | .ok _ => none

/-- The file that an include leads to, if it can be read. -/
def source? (v : Inclusion) : Option SourceFile :=
  match r.content v.included with
  | .error _ => none
  | .ok text => some (.ofText v.included text)

theorem follow_nil (visited : List (List Component)) (done : ParsedSource) :
    r.follow visited done [] =
      .ok { done with nodes := done.nodes.reverse, files := done.files.reverse } := by
  rw [follow]

theorem follow_statement (visited : List (List Component)) (done : ParsedSource) (file : Path)
    (n : Node) (rest : List (Path × Item)) :
    r.follow visited done ((file, .statement n) :: rest) =
      r.follow visited { done with nodes := n :: done.nodes } rest := by
  rw [follow]

variable {r} {visited : List (List Component)} {file : Path} {target : String}

theorem follow_again (h : (resolveInclude file target).components ∈ visited) (done : ParsedSource)
    (location : Location) (rest : List (Path × Item)) :
    r.follow visited done ((file, .includes target location) :: rest) =
      r.follow visited done rest := by
  rw [follow]
  simp [h]

theorem follow_fault (h : (resolveInclude file target).components ∉ visited) {e : Error}
    (hfault : r.fault? ⟨file, resolveInclude file target⟩ = some e) (done : ParsedSource)
    (location : Location) (rest : List (Path × Item)) :
    r.follow visited done ((file, .includes target location) :: rest) = .error e := by
  have hnew : ¬ visited.contains (resolveInclude file target).components = true := by simpa using h
  rw [follow]
  rw [dif_neg hnew]
  simp only [fault?] at hfault
  split
  · rename_i cause hc
    simp only [hc, Option.some.injEq] at hfault
    rw [hfault]
  · rename_i text hc
    simp only [hc] at hfault
    cases hp : parseItems (resolveInclude file target) text with
    | error cause =>
      simp only [hp, Option.some.injEq] at hfault
      rw [hfault]
    | ok items => simp [hp] at hfault

theorem follow_first (h : (resolveInclude file target).components ∉ visited)
    (hfault : r.fault? ⟨file, resolveInclude file target⟩ = none) (done : ParsedSource)
    (location : Location) (rest : List (Path × Item)) :
    r.follow visited done ((file, .includes target location) :: rest) =
      r.follow ((resolveInclude file target).components :: visited)
        { done with
          files := (r.source? ⟨file, resolveInclude file target⟩).toList ++ done.files }
        ((r.itemsOf (resolveInclude file target)).map
          (fun item => (resolveInclude file target, item)) ++ rest) := by
  have hnew : ¬ visited.contains (resolveInclude file target).components = true := by simpa using h
  rw [follow]
  rw [dif_neg hnew]
  simp only [fault?] at hfault
  split
  · rename_i cause hc
    simp [hc] at hfault
  · rename_i text hc
    simp only [hc] at hfault
    cases hp : parseItems (resolveInclude file target) text with
    | error cause => simp [hp] at hfault
    | ok items => simp [source?, itemsOf, hc, hp]

variable {seen : List (List Component)} {items : List Item} {reached : List Inclusion}
  {nodes : List Node}

/-- Working through the items of a file fails with the first fault of its traversal, or goes on
behind it with everything that the traversal has found. -/
theorem follow_traverses (h : Traverses r.itemsOf seen file items reached nodes)
    (done : ParsedSource) (rest : List (Path × Item)) :
    r.follow seen done (items.map (fun item => (file, item)) ++ rest) =
      match reached.findSome? r.fault? with
      | some e => .error e
      | none =>
        r.follow ((reached.map Inclusion.key).reverse ++ seen)
          { done with
            nodes := nodes.reverse ++ done.nodes
            files := (reached.filterMap r.source?).reverse ++ done.files } rest := by
  induction h generalizing done rest with
  | done => simp
  | statement _ ih =>
    rw [List.map_cons, List.cons_append, follow_statement, ih]
    simp
  | again hs _ ih =>
    rw [List.map_cons, List.cons_append, follow_again hs, ih]
  | @first seen file target location items inner outer below nodes hs _ _ ihin ih =>
    rw [List.map_cons, List.cons_append, List.cons_append, List.findSome?_cons]
    cases hfault : r.fault? ⟨file, resolveInclude file target⟩ with
    | some e => exact follow_fault hs hfault done location _
    | none =>
      rw [follow_first hs hfault, ihin, List.findSome?_append]
      cases inner.findSome? r.fault? with
      | some e => rfl
      | none =>
        simp only [Option.none_or]
        rw [ih]
        cases outer.findSome? r.fault? with
        | some e => rfl
        | none =>
          cases hsource : r.source? ⟨file, resolveInclude file target⟩ <;>
            simp [hsource, Inclusion.key]

theorem unread_append_le (fs : FileSystem) (more seen : List (List Component)) :
    fs.unread (more ++ seen) ≤ fs.unread seen := by
  refine List.countP_mono_left fun k _ hk => ?_
  simp only [List.contains_eq_mem, List.mem_append, Bool.not_eq_eq_eq_not, Bool.not_true,
    decide_eq_false_iff_not, not_or] at hk ⊢
  exact hk.2

variable (r) in
/-- There is a traversal, however the includes lead into each other: every file that has items of
its own is one that can be read, and there are only finitely many of those. -/
theorem exists_traverses (seen : List (List Component)) (file : Path) (items : List Item) :
    ∃ reached nodes, Traverses r.itemsOf seen file items reached nodes := by
  generalize hn : r.fileSystem.unread seen = n
  induction n using Nat.strongRecOn generalizing seen file items with
  | ind n ihn =>
    subst hn
    -- the files still unread may become fewer from item to item
    suffices hall : ∀ more, ∃ reached nodes,
        Traverses r.itemsOf (more ++ seen) file items reached nodes by
      exact hall []
    intro more
    induction items generalizing more with
    | nil => exact ⟨[], [], .done⟩
    | cons item rest ih =>
      cases item with
      | statement n =>
        obtain ⟨reached, nodes, h⟩ := ih more
        exact ⟨reached, n :: nodes, .statement h⟩
      | includes target location =>
        by_cases hs : (resolveInclude file target).components ∈ more ++ seen
        · obtain ⟨reached, nodes, h⟩ := ih more
          exact ⟨reached, nodes, .again hs h⟩
        · have hinner : ∃ inner below, Traverses r.itemsOf
              ((resolveInclude file target).components :: (more ++ seen))
              (resolveInclude file target)
              (r.itemsOf (resolveInclude file target)) inner below := by
            cases hc : r.content (resolveInclude file target) with
            | error cause =>
              simp only [itemsOf, hc]
              exact ⟨[], [], .done⟩
            | ok text =>
              have hfewer : r.fileSystem.unread (_ :: (more ++ seen)) <
                  r.fileSystem.unread (more ++ seen) :=
                FileSystem.unread_cons_lt (read_of_content hc) (by simpa using hs)
              have hmore := unread_append_le r.fileSystem more seen
              exact ihn _ (by omega) _ _ _ rfl
          obtain ⟨inner, below, hin⟩ := hinner
          obtain ⟨outer, nodes, h⟩ := ih
            ((inner.map Inclusion.key).reverse ++ (resolveInclude file target).components :: more)
          rw [List.append_assoc, List.cons_append] at h
          exact ⟨_, _, .first hs hin h⟩

/-- A run yields the traversal of its root, or the first fault of it. -/
theorem readText_eq {root : Path} {text : String} (hparse : parseItems root text = .ok items)
    (h : Traverses r.itemsOf [root.components] root items reached nodes) :
    r.readText root text =
      match reached.findSome? r.fault? with
      | some e => .error e
      | none => .ok ⟨root, nodes, .ofText root text :: reached.filterMap r.source?⟩ := by
  have hfollow := follow_traverses h ⟨root, [], [.ofText root text]⟩ []
  rw [List.append_nil] at hfollow
  simp only [readText, hparse, hfollow]
  cases reached.findSome? r.fault? with
  | some e => rfl
  | none => simp [follow_nil]

end ProgramReader
end AspAtlas
