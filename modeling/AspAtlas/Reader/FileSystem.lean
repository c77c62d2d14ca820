import AspAtlas.Error
/-!
Where program files come from. Only finitely many paths, up to their components, can be read; this
is what makes following includes terminate.
-/
namespace AspAtlas

/-- A source of file texts. -/
structure FileSystem where
  /-- Whether a path leads to a file. -/
  isFile : Path → Bool
  /-- The text of a file. -/
  read : Path → Except IoCause String
  /-- Only finitely many paths can be read, up to their components. -/
  finite : ∃ readable : List (List Component),
    ∀ p text, read p = .ok text → p.components ∈ readable

namespace FileSystem

/-- A list of all paths that can be read, by their components. -/
noncomputable def readable (fs : FileSystem) : List (List Component) := Classical.choose fs.finite

theorem mem_readable {fs : FileSystem} {p : Path} {text : String} (h : fs.read p = .ok text) :
    p.components ∈ fs.readable := Classical.choose_spec fs.finite p text h

/-- How many readable paths are not among some visited ones. -/
noncomputable def unread (fs : FileSystem) (visited : List (List Component)) : Nat :=
  fs.readable.countP fun p => !visited.contains p

theorem unread_cons_lt {fs : FileSystem} {visited : List (List Component)} {p : Path}
    {text : String} (h : fs.read p = .ok text) (hv : visited.contains p.components = false) :
    fs.unread (p.components :: visited) < fs.unread visited := by
  have key : ∀ readable : List (List Component), p.components ∈ readable →
      readable.countP (fun q => !(q == p.components || visited.contains q))
        < readable.countP fun q => !visited.contains q := by
    intro readable hm
    induction readable with
    | nil => exact absurd hm List.not_mem_nil
    | cons q rest ih =>
      have hle : rest.countP (fun q => !(q == p.components || visited.contains q))
          ≤ rest.countP fun q => !visited.contains q := by
        refine List.countP_mono_left fun r _ hr => ?_
        simp only [Bool.not_or, Bool.and_eq_true] at hr
        exact hr.2
      rw [List.countP_cons, List.countP_cons]
      by_cases hq : q = p.components
      · subst hq
        simp only [BEq.rfl, Bool.true_or, Bool.not_true, Bool.false_eq_true, if_false, hv,
          Bool.not_false, if_true]
        omega
      · have hm : p.components ∈ rest := (List.mem_cons.1 hm).resolve_left fun h => hq h.symm
        have := ih hm
        have hb : (q == p.components) = false := by simpa using hq
        simp only [hb, Bool.false_or]
        omega
  simpa only [unread, List.contains_cons] using key fs.readable (mem_readable h)

end FileSystem
end AspAtlas
