/-!
Finite sets listed in ascending order. Equal sets are equal as data; building a set from a list
sorts it and drops repetitions.
-/
namespace AspAtlas

/-- A finite set, listed in ascending order. -/
structure OrderedSet (α : Type) [Ord α] where
  toList : List α
  ascending : toList.Pairwise fun a b => compare a b = .lt

namespace OrderedSet

variable {α : Type} [Ord α]

/-- The set without elements. -/
def empty : OrderedSet α := ⟨[], .nil⟩

instance : Inhabited (OrderedSet α) := ⟨empty⟩

instance [BEq α] : BEq (OrderedSet α) := ⟨fun a b => a.toList == b.toList⟩

@[ext] theorem ext {a b : OrderedSet α} (h : a.toList = b.toList) : a = b := by
  cases a
  cases b
  simp_all

/-- Puts an element into its place in an ascending list. -/
def place (x : α) : List α → List α
  | [] => [x]
  | y :: rest =>
    match compare x y with
    | .lt => x :: y :: rest
    | .eq => y :: rest
    | .gt => y :: place x rest

theorem mem_place_of_mem {x z : α} {ys : List α} (h : z ∈ place x ys) : z = x ∨ z ∈ ys := by
  induction ys with
  | nil => exact .inl (by simpa [place] using h)
  | cons y rest ih =>
    simp only [place] at h
    split at h
    · exact List.mem_cons.1 h
    · exact .inr h
    · rcases List.mem_cons.1 h with rfl | h
      · exact .inr List.mem_cons_self
      · exact (ih h).imp_right (List.mem_cons_of_mem _)

theorem place_ascending [Std.TransOrd α] {x : α} {ys : List α}
    (h : ys.Pairwise fun a b => compare a b = .lt) :
    (place x ys).Pairwise fun a b => compare a b = .lt := by
  induction ys with
  | nil => simp [place]
  | cons y rest ih =>
    obtain ⟨hy, hrest⟩ := List.pairwise_cons.1 h
    simp only [place]
    split
    · rename_i hlt
      refine List.pairwise_cons.2 ⟨fun b hb => ?_, h⟩
      rcases List.mem_cons.1 hb with rfl | hb
      · exact hlt
      · exact Std.TransCmp.lt_trans hlt (hy b hb)
    · exact h
    · rename_i hgt
      refine List.pairwise_cons.2 ⟨fun b hb => ?_, ih hrest⟩
      rcases mem_place_of_mem hb with rfl | hb
      · exact Std.OrientedCmp.gt_iff_lt.1 hgt
      · exact hy b hb

theorem mem_place [Std.LawfulEqOrd α] {x z : α} {ys : List α} :
    z ∈ place x ys ↔ z = x ∨ z ∈ ys := by
  refine ⟨mem_place_of_mem, fun h => ?_⟩
  induction ys with
  | nil => simpa [place] using h
  | cons y rest ih =>
    simp only [place]
    split
    · exact List.mem_cons.2 h
    · rename_i heq
      have hxy : x = y := Std.LawfulEqCmp.eq_of_compare heq
      rcases h with rfl | h
      · exact hxy ▸ List.mem_cons_self
      · exact h
    · rcases h with h | h
      · exact List.mem_cons_of_mem _ (ih (.inl h))
      · rcases List.mem_cons.1 h with rfl | h
        · exact List.mem_cons_self
        · exact List.mem_cons_of_mem _ (ih (.inr h))

/-- Ascending lists with the same elements are equal. -/
theorem eq_of_ascending [Std.TransOrd α] {xs ys : List α}
    (hx : xs.Pairwise fun a b => compare a b = .lt) (hy : ys.Pairwise fun a b => compare a b = .lt)
    (h : ∀ z, z ∈ xs ↔ z ∈ ys) : xs = ys := by
  have nodup {zs : List α} (hz : zs.Pairwise fun a b => compare a b = .lt) : zs.Nodup :=
    hz.imp fun {a b} hab heq => by
      subst heq
      simp at hab
  have perm : xs.Perm ys := (List.perm_ext_iff_of_nodup (nodup hx) (nodup hy)).2 h
  have anti (a b : α) (_ : a ∈ xs) (_ : b ∈ ys) (hab : compare a b = .lt)
      (hba : compare b a = .lt) : a = b := absurd hba (Std.OrientedCmp.not_lt_of_lt hab)
  exact perm.eq_of_pairwise anti hx hy

variable [Std.TransOrd α]

/-- The set with one more element. -/
def insert (s : OrderedSet α) (x : α) : OrderedSet α :=
  ⟨place x s.toList, place_ascending s.ascending⟩

/-- The set of the elements of a list. -/
def ofList (xs : List α) : OrderedSet α := xs.foldr (fun x s => s.insert x) empty

/-- The elements of either of two sets. -/
def union (s t : OrderedSet α) : OrderedSet α := s.toList.foldr (fun x u => u.insert x) t

omit [Std.TransOrd α] in
/-- Whether the set has an element. -/
def contains [BEq α] (s : OrderedSet α) (x : α) : Bool := s.toList.contains x

instance : Membership α (OrderedSet α) := ⟨fun s x => x ∈ s.toList⟩

theorem mem_insert [Std.LawfulEqOrd α] {s : OrderedSet α} {x z : α} :
    z ∈ s.insert x ↔ z = x ∨ z ∈ s := mem_place

theorem mem_foldr_insert [Std.LawfulEqOrd α] {xs : List α} {s : OrderedSet α} {z : α} :
    z ∈ xs.foldr (fun x s => s.insert x) s ↔ z ∈ xs ∨ z ∈ s := by
  induction xs with
  | nil => simp
  | cons x xs ih =>
    rw [List.foldr_cons, mem_insert, ih, List.mem_cons]
    grind

theorem mem_ofList [Std.LawfulEqOrd α] {xs : List α} {z : α} : z ∈ ofList xs ↔ z ∈ xs := by
  rw [ofList, mem_foldr_insert]
  exact ⟨fun h => h.elim id (fun h => absurd h List.not_mem_nil), .inl⟩

theorem mem_union [Std.LawfulEqOrd α] {s t : OrderedSet α} {z : α} :
    z ∈ s.union t ↔ z ∈ s ∨ z ∈ t := mem_foldr_insert

/-- A set is determined by its elements. -/
theorem eq_iff_mem {s t : OrderedSet α} : s = t ↔ ∀ z, z ∈ s ↔ z ∈ t :=
  ⟨fun h _ => h ▸ Iff.rfl, fun h => ext (eq_of_ascending s.ascending t.ascending h)⟩

end OrderedSet
end AspAtlas
