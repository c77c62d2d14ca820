import Mathlib.Data.List.Nodup
import Mathlib.Data.List.Infix
/-!
Rows in which everything stands once, where it first appears.
-/
namespace AspAtlas

variable {α : Type} [BEq α] [LawfulBEq α]

theorem eraseDups_filter (p : α → Bool) (xs : List α) :
    (xs.filter p).eraseDups = xs.eraseDups.filter p := by
  match xs with
  | [] => rfl
  | x :: xs =>
    have hrest := eraseDups_filter p (xs.filter fun y => !y == x)
    rw [List.filter_filter] at hrest
    rw [List.eraseDups_cons, List.filter_cons, List.filter_cons]
    cases hx : p x with
    | true => simp only [if_true, List.eraseDups_cons, List.filter_filter, ← hrest, Bool.and_comm]
    | false =>
      have hfilter : xs.filter p = xs.filter fun y => p y && !y == x := by
        refine List.filter_congr fun y _ => ?_
        by_cases hy : y = x <;> simp [hy, hx]
      simp only [Bool.false_eq_true, if_false, ← hrest, hfilter]
termination_by xs.length
decreasing_by exact Nat.lt_succ_of_le (List.length_filter_le _ _)

theorem nodup_eraseDups (xs : List α) : xs.eraseDups.Nodup := by
  match xs with
  | [] => simp
  | x :: xs =>
    rw [List.eraseDups_cons, List.nodup_cons]
    refine ⟨?_, nodup_eraseDups _⟩
    simp [List.mem_eraseDups]
termination_by xs.length
decreasing_by exact Nat.lt_succ_of_le (List.length_filter_le _ _)

/-- Which of two rows that show the same stands behind others does not count. -/
theorem eraseDups_append_congr {xs ys : List α} (h : xs.eraseDups = ys.eraseDups) (as : List α) :
    (as ++ xs).eraseDups = (as ++ ys).eraseDups := by
  simp only [List.eraseDups_append, List.removeAll, eraseDups_filter, h]

theorem eraseDups_concat (xs : List α) (x : α) :
    (xs ++ [x]).eraseDups = if xs.elem x then xs.eraseDups else xs.eraseDups ++ [x] := by
  rw [List.eraseDups_append, List.removeAll, List.filter_singleton]
  cases xs.elem x <;> simp [List.eraseDups_cons]

theorem eraseDups_append_self (xs : List α) : (xs ++ xs).eraseDups = xs.eraseDups := by
  have hnone : xs.removeAll xs = [] := by
    rw [List.removeAll, List.filter_eq_nil_iff]
    intro x hx
    simp [hx]
  rw [List.eraseDups_append, hnone, List.eraseDups_nil, List.append_nil]

/-- What appears last for the first time: behind its first appearance nothing is new. -/
theorem getLast?_eraseDups_eq_some_iff {xs : List α} {y : α} :
    xs.eraseDups.getLast? = some y ↔
      y ∈ xs ∧ ∀ before x behind, xs = before ++ x :: behind → y ∈ before → x ∈ before := by
  induction xs using List.reverseRecOn with
  | nil => simp
  | append_singleton xs x ih =>
    rw [eraseDups_concat]
    by_cases hx : x ∈ xs
    · rw [if_pos (List.elem_iff.mpr hx), ih]
      have hmem : y ∈ xs ++ [x] ↔ y ∈ xs := by
        rw [List.mem_append, List.mem_singleton]
        exact ⟨fun h => h.elim id fun he => he ▸ hx, .inl⟩
      rw [hmem, and_congr_right_iff]
      intro hy
      constructor
      · intro h before z behind heq hbefore
        rcases List.eq_nil_or_concat behind with rfl | ⟨behind, last, rfl⟩
        · obtain ⟨rfl, hlast⟩ := List.append_inj' heq rfl
          obtain rfl := List.singleton_inj.mp hlast
          exact hx
        · rw [List.concat_eq_append, ← List.cons_append, ← List.append_assoc] at heq
          exact h before z behind (List.append_inj' heq rfl).1 hbefore
      · intro h before z behind heq
        refine h before z (behind ++ [x]) ?_
        rw [heq, List.append_assoc, List.cons_append]
    · rw [if_neg (fun he => hx (List.elem_iff.mp he)), List.getLast?_concat, Option.some.injEq]
      constructor
      · rintro rfl
        refine ⟨List.mem_append_right _ List.mem_cons_self, fun before z behind heq hbefore => ?_⟩
        refine absurd ?_ hx
        -- all but the last item stand in front of it
        have hprefix : before <+: xs := by
          refine List.prefix_of_prefix_length_le ⟨z :: behind, heq.symm⟩
            (List.prefix_append xs [x]) ?_
          have hlength := congrArg List.length heq
          simp only [List.length_append, List.length_cons, List.length_nil] at hlength
          omega
        exact hprefix.subset hbefore
      · rintro ⟨hy, hall⟩
        rcases List.mem_append.mp hy with hy | hy
        · exact absurd (hall xs x [] rfl hy) hx
        · exact (List.mem_singleton.mp hy).symm

/-- The first items under each key stand in the order of the row. -/
theorem firsts_sublist {β : Type} (key : β → α) (xs : List β) :
    ((xs.map key).eraseDups.filterMap fun k => xs.find? fun x => key x == k).Sublist xs := by
  match xs with
  | [] => simp
  | x :: rest =>
    have hmore := firsts_sublist key (rest.filter fun y => !key y == key x)
    have hkeys : (rest.map key).filter (fun k => !k == key x) =
        (rest.filter fun y => !key y == key x).map key := by
      rw [List.filter_map]
      rfl
    have hfind : ((rest.filter fun y => !key y == key x).map key).eraseDups.filterMap
        (fun k => (x :: rest).find? fun y => key y == k) =
          ((rest.filter fun y => !key y == key x).map key).eraseDups.filterMap
            fun k => (rest.filter fun y => !key y == key x).find? fun y => key y == k := by
      refine List.filterMap_congr fun k hk => ?_
      obtain ⟨y, hy, rfl⟩ := List.mem_map.mp (List.mem_eraseDups.mp hk)
      have hne : key y ≠ key x := by simpa using (List.mem_filter.mp hy).2
      have hsame : (fun z => decide ((!key z == key x) = true ∧ (key z == key y) = true)) =
          fun z => key z == key y := by
        funext z
        by_cases hz : key z = key y <;> simp [hz, hne]
      rw [List.find?_cons, beq_eq_false_iff_ne.mpr (Ne.symm hne), List.find?_filter, hsame]
    rw [List.map_cons, List.eraseDups_cons, hkeys, List.filterMap_cons, hfind]
    simp only [List.find?_cons, beq_self_eq_true]
    exact (hmore.trans List.filter_sublist).cons_cons x
termination_by xs.length
decreasing_by exact Nat.lt_succ_of_le (List.length_filter_le _ _)

end AspAtlas
