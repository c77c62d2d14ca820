import AspAtlas.Proofs.Path.Components
/-!
Paths relative to another path. A path that lies at or below a base is left with the components that
it has on top of those of the base, however the two are spelled.
-/
namespace AspAtlas.Path

variable {cs part : List Char} {p base : Path} {rest : List Component}

theorem inner_slash (cs : List Char) : inner ('/' :: cs) = inner cs := by
  simp [inner, componentOf?]

theorem inner_append_slash (cs ds : List Char) :
    inner (cs ++ '/' :: ds) = inner cs ++ inner ds := by
  rw [inner, parts_append_slash, List.filterMap_append, inner, inner]

theorem exists_componentsOf_eq_singleton (h : '/' ∉ part) (hne : part ≠ []) :
    ∃ c, componentsOf part = [c] := by
  have hsome : componentsOf part ≠ [] := mt componentsOf_eq_nil_iff.mp hne
  have hone := List.dropLast_concat_getLast hsome
  rw [dropLast_componentsOf_of_no_slash h] at hone
  exact ⟨_, hone.symm⟩

/-- Behind its first component, a whole path has all others. -/
theorem inner_dropFirst (cs : List Char) : inner (dropFirst cs) = (componentsOf cs).tail := by
  fun_cases dropFirst cs with
  | case1 rest => rw [componentsOf_slash, List.tail_cons]
  | case2 => decide
  | case3 rest =>
    rw [inner_slash, ← List.singleton_append, componentsOf_append_slash (List.cons_ne_nil _ _)]
    rfl
  | case4 cs hslash =>
    rcases dropWhile_ne_slash cs with ⟨hm, hd⟩ | ⟨part, above, hm, rfl, hd⟩
    · rw [hd, inner_nil]
      by_cases hne : cs = []
      · rw [hne]
        rfl
      · obtain ⟨c, hc⟩ := exists_componentsOf_eq_singleton hm hne
        rw [hc, List.tail_cons]
    · have hne : part ≠ [] := by
        rintro rfl
        exact hslash above rfl
      obtain ⟨c, hc⟩ := exists_componentsOf_eq_singleton hm hne
      rw [hd, inner_slash, componentsOf_append_slash hne, hc]
      rfl

theorem inner_trimLead (cs : List Char) : inner (trimLead cs) = inner cs := by
  fun_induction trimLead cs with
  | case1 => rfl
  | case2 rest ih => rw [ih, inner_slash]
  | case3 => decide
  | case4 rest ih =>
    rw [ih, ← List.singleton_append, inner_append_slash, inner_dot, List.nil_append]
  | case5 => rfl

/-- What is left starts with a part that is a component. -/
theorem trimLead_cases (cs : List Char) : trimLead cs = [] ∨
    ∃ part c, componentsOf part = [c] ∧ inner part = [c] ∧
      (trimLead cs = part ∧ (trimLead cs).dropWhile (· != '/') = [] ∨
        ∃ above, trimLead cs = part ++ '/' :: above ∧
          (trimLead cs).dropWhile (· != '/') = '/' :: above) := by
  fun_induction trimLead cs with
  | case1 => exact .inl rfl
  | case2 rest ih => exact ih
  | case3 => exact .inl rfl
  | case4 rest ih => exact ih
  | case5 cs hnil hslash hdot hdots =>
    right
    rcases dropWhile_ne_slash cs with ⟨hm, hd⟩ | ⟨part, above, hm, rfl, hd⟩
    · obtain ⟨c, hc⟩ := inner_of_no_slash hm hnil hdot
      exact ⟨cs, c, (componentsOf_eq_inner hm hdot).trans hc, hc, .inl ⟨rfl, hd⟩⟩
    · have hne : part ≠ [] := by
        rintro rfl
        exact hslash above rfl
      have hne' : part ≠ ['.'] := by
        rintro rfl
        exact hdots above rfl
      obtain ⟨c, hc⟩ := inner_of_no_slash hm hne hne'
      exact ⟨part, c, (componentsOf_eq_inner hm hne').trans hc, hc, .inr ⟨above, rfl, hd⟩⟩

theorem componentsOf_trimLead (cs : List Char) : componentsOf (trimLead cs) = inner cs := by
  rw [← inner_trimLead]
  rcases trimLead_cases cs with hnil | ⟨part, c, hc, hinner, ⟨hleft, -⟩ | ⟨above, hleft, -⟩⟩
  · rw [hnil]
    rfl
  · rw [hleft, hc, hinner]
  · have hne : part ≠ [] := by
      rintro rfl
      cases hc
    rw [hleft, componentsOf_append_slash hne, inner_append_slash, hc, hinner]

theorem inner_dropMore (n : Nat) (cs : List Char) : inner (dropMore n cs) = (inner cs).drop n := by
  fun_induction dropMore n cs with
  | case1 => rfl
  | case2 n cs ih =>
    have htail : inner ((trimLead cs).dropWhile (· != '/')) = (inner cs).tail := by
      rw [← inner_trimLead cs]
      rcases trimLead_cases cs with hnil | ⟨part, c, hc, hinner, ⟨hleft, hd⟩ | ⟨above, hleft, hd⟩⟩
      · rw [hnil]
        rfl
      · rw [hd, hleft, hinner]
        rfl
      · rw [hd, inner_slash, hleft, inner_append_slash, hinner]
        rfl
    rw [ih, htail, List.drop_tail]

theorem componentsOf_trimTail (h : componentsOf cs ≠ [.root]) :
    componentsOf (trimTail cs) = componentsOf cs := by
  by_cases htail : dropTail cs.reverse = []
  · by_cases hne : cs = []
    · simp [hne, trimTail, dropTail]
    · have hroot := (root_of_dropTail_eq_nil htail (by simpa using hne)).2
      rw [List.reverse_reverse] at hroot
      exact absurd hroot h
  · rw [trimTail, componentsOf_dropTail htail, List.reverse_reverse]

/-- A path below a base is relative to it what it has on top of the base's components. -/
theorem exists_stripLead? (h : p.components = base.components ++ rest) (hroot : rest ≠ [.root]) :
    ∃ q, p.stripLead? base = some q ∧ q.components = rest := by
  have hbelow : base.components.isPrefixOf p.components = true := by
    rw [List.isPrefixOf_iff_prefix, h]
    exact List.prefix_append _ _
  have hrest : rest = p.components.drop base.components.length := by
    rw [h, List.drop_left]
  rw [stripLead?, if_pos hbelow]
  rcases hlength : base.components.length with _ | n
  · refine ⟨_, rfl, ?_⟩
    rw [hlength, List.drop_zero] at hrest
    rw [components, String.toList_ofList, componentsOf_trimTail, hrest, components]
    rwa [hrest] at hroot
  · refine ⟨_, rfl, ?_⟩
    have hcut : componentsOf (trimLead (dropMore n (dropFirst p.text.toList))) = rest := by
      rw [componentsOf_trimLead, inner_dropMore, inner_dropFirst, List.drop_tail, hrest,
        hlength, components]
    rw [components, String.toList_ofList, componentsOf_trimTail, hcut]
    rwa [hcut]

end AspAtlas.Path
