/-!
Directed edges, ordered by their sources and then by their targets.
-/
namespace AspAtlas

/-- An edge from a source to a target. -/
structure Edge (α : Type) where
  source : α
  target : α
deriving DecidableEq, Repr, Inhabited

namespace Edge

variable {α : Type}

instance [Ord α] : Ord (Edge α) where
  compare := compareLex (compareOn source) (compareOn target)

instance [Ord α] [Std.TransOrd α] : Std.TransOrd (Edge α) :=
  inferInstanceAs (Std.TransCmp
    (compareLex (compareOn fun e : Edge α => e.source) (compareOn fun e : Edge α => e.target)))

instance [Ord α] [Std.LawfulEqOrd α] : Std.LawfulEqOrd (Edge α) where
  eq_of_compare {a b} h := by
    have h' : compareLex (compareOn fun e : Edge α => e.source)
      (compareOn fun e : Edge α => e.target) a b = .eq := h
    rw [compareLex_eq_eq] at h'
    have hs : a.source = b.source := Std.LawfulEqCmp.eq_of_compare h'.1
    have ht : a.target = b.target := Std.LawfulEqCmp.eq_of_compare h'.2
    cases a
    cases b
    simp_all
  compare_self {a} := by
    show compareLex (compareOn fun e : Edge α => e.source)
      (compareOn fun e : Edge α => e.target) a a = .eq
    rw [compareLex_eq_eq]
    exact ⟨Std.ReflCmp.compare_self, Std.ReflCmp.compare_self⟩

end Edge
end AspAtlas
