import AspAtlas.Proofs.Path.Components
import Mathlib.Data.List.Basic
/-!
Paths with another extension. What changes is the name at the end: behind its stem stands the new
extension.
-/
namespace AspAtlas.Path

variable {cs : List Char} {p : Path} {name ext : String}

/-- A text that is a name is its only component. -/
theorem components_of_ne_dots (h : '/' ∉ cs) (hne : cs ≠ []) (hdot : cs ≠ ['.'])
    (hup : cs ≠ ['.', '.']) :
    componentsOf cs = [.name (String.ofList cs)] ∧ inner cs = [.name (String.ofList cs)] := by
  have hname : componentOf? cs = some (.name (String.ofList cs)) := by
    rw [componentOf?, if_neg (by simp [hne, hdot]), if_neg hup]
  have hinner : inner cs = [.name (String.ofList cs)] := by
    rw [inner, parts_of_no_slash h]
    simp [hname]
  exact ⟨(componentsOf_eq_inner h hdot).trans hinner, hinner⟩

theorem components_of_name (h : '/' ∉ cs) (hlong : 2 < cs.length) :
    componentsOf cs = [.name (String.ofList cs)] ∧ inner cs = [.name (String.ofList cs)] := by
  refine components_of_ne_dots h ?_ ?_ ?_ <;> rintro rfl <;> simp at hlong

/-- A name that is the last component of a text without slashes is that text. -/
theorem eq_of_getLast?_of_no_slash (h : '/' ∉ cs)
    (hlast : (componentsOf cs).getLast? = some (.name name) ∨
      (inner cs).getLast? = some (.name name)) :
    name = String.ofList cs := by
  have hpart {part : List Char} (hpart : (componentOf? part).toList.getLast? = some (.name name)) :
      name = String.ofList part := by
    rw [componentOf?] at hpart
    split at hpart
    · simp at hpart
    · split at hpart
      · simp at hpart
      · simpa [eq_comm] using hpart
  rcases hlast with hlast | hlast
  · cases cs with
    | nil => simp at hlast
    | cons c cs =>
      simp only [List.mem_cons, not_or] at h
      rw [componentsOf_cons (Ne.symm h.1) (parts_of_no_slash h.2), List.filterMap_nil,
        List.append_nil] at hlast
      split at hlast
      · simp at hlast
      · exact hpart hlast
  · rw [inner, parts_of_no_slash h, List.filterMap_cons, List.filterMap_nil] at hlast
    apply hpart
    cases hc : componentOf? cs <;> simp_all

theorem stem_begins_name (name : String) : (splitFileName name).1.toList <+: name.toList := by
  rw [splitFileName]
  split
  · exact List.prefix_rfl
  · exact List.prefix_rfl
  · rename_i c stem hne hdrop
    have hsuffix : stem <:+ name.toList.reverse := by
      have htail := List.drop_suffix
        (name.toList.reverse.takeWhile (· != '.')).length name.toList.reverse
      rw [hdrop] at htail
      exact (List.suffix_cons c stem).trans htail
    rw [String.toList_ofList]
    have hprefix := List.reverse_prefix.mpr hsuffix
    rwa [List.reverse_reverse] at hprefix

theorem fileName?_eq_some_iff : p.fileName? = some name ↔ p.components.getLast? = some
    (.name name) := by
  rw [fileName?, Option.bind_eq_some_iff]
  constructor
  · rintro ⟨c, hc, htext⟩
    cases c with
    | name text => exact hc.trans (congrArg some (congrArg Component.name (Option.some.inj htext)))
    | root | current | parent => cases htext
  · intro h
    exact ⟨_, h, rfl⟩

/-- Behind the text in front of a file name, whatever follows is split on its own. -/
theorem exists_lead (h : p.fileName? = some name) : '/' ∉ name.toList ∧
    ∃ base f, (f = componentsOf ∨ f = inner) ∧ p.components = base ++ [.name name] ∧ ∀ cs,
      componentsOf (((dropTail p.text.toList.reverse).dropWhile (· != '/')).reverse ++ cs) =
        base ++ f cs := by
  have hlast := fileName?_eq_some_iff.mp h
  have hnil : p.components ≠ [] := by
    intro he
    simp [he] at hlast
  have hroot : p.components ≠ [.root] := by
    intro he
    simp [he] at hlast
  obtain ⟨-, hp⟩ := components_dropTail hnil hroot
  have hcases := dropTail_cases p.text.toList.reverse
  generalize dropTail p.text.toList.reverse = rev at *
  rw [hp] at hlast ⊢
  rcases hcases with ⟨hm, hd⟩ | ⟨last, above, hm, hne, hdot, rfl, hd⟩
  · have hm' : '/' ∉ rev.reverse := by simpa using hm
    have hname := eq_of_getLast?_of_no_slash hm' (.inl hlast)
    refine ⟨by simpa [hname] using hm, [], componentsOf, .inl rfl, ?_, by simp [hd]⟩
    have hone := List.dropLast_append_getLast? _ hlast
    rw [dropLast_componentsOf_of_no_slash hm'] at hone
    exact hone.symm
  · have happ : (last ++ '/' :: above).reverse = above.reverse ++ '/' :: last.reverse := by simp
    have hm' : '/' ∉ last.reverse := by simpa using hm
    obtain ⟨c, hc⟩ := inner_of_no_slash hm' (by simpa using hne) (by simpa using hdot)
    rw [happ, componentsOf_slash_end, hc] at hlast ⊢
    rw [List.getLast?_concat, Option.some.injEq] at hlast
    subst hlast
    have hname := eq_of_getLast?_of_no_slash hm' (.inr (by rw [hc, List.getLast?_singleton]))
    refine ⟨by simpa [hname] using hm, componentsOf (above.reverse ++ ['/']), inner, .inr rfl, rfl,
      fun cs => ?_⟩
    rw [hd, List.reverse_cons, List.append_assoc, List.singleton_append]
    exact componentsOf_slash_end above.reverse cs

/-- With another extension, a path has the components it had but for its file name, whose stem the
extension now follows. -/
theorem components_withExtension {last : String} (hext : '/' ∉ ext.toList)
    (hlong : 1 < ext.toList.length)
    (h : (p.withExtension ext).components.getLast? = some (.name last)) :
    ∃ name, p.fileName? = some name ∧ (p.withExtension ext).components =
      p.components.dropLast ++ [.name ((splitFileName name).1 ++ "." ++ ext)] := by
  cases hname : p.fileName? with
  | none =>
    have hsame : p.withExtension ext = p := by
      rw [withExtension, hname]
    rw [hsame, ← fileName?_eq_some_iff, hname] at h
    cases h
  | some name =>
    refine ⟨name, rfl, ?_⟩
    obtain ⟨hslash, base, f, hf, hp, hbehind⟩ := exists_lead hname
    simp only [withExtension, hname, components] at h ⊢
    split at h
    · -- two dots are no name
      exfalso
      rw [String.toList_append, String.toList_ofList, hbehind] at h
      rcases hf with rfl | rfl <;> simp [componentsOf, inner, parts, componentOf?] at h
    · rename_i hdots
      rw [if_neg hdots]
      have hsome : ext.isEmpty = false := by
        rw [Bool.eq_false_iff]
        intro he
        rw [String.isEmpty_iff] at he
        simp [he] at hlong
      rw [hsome, if_neg Bool.false_ne_true]
      have hstem : '/' ∉ (splitFileName name).1.toList :=
        fun hc => hslash ((stem_begins_name name).subset hc)
      have hnew : '/' ∉ (splitFileName name).1.toList ++ '.' :: ext.toList := by
        simp [hstem, hext]
      have hlength : 2 < ((splitFileName name).1.toList ++ '.' :: ext.toList).length := by
        rw [List.length_append, List.length_cons]
        omega
      have htext : (String.ofList ((dropTail p.text.toList.reverse).dropWhile (· != '/')).reverse ++
          (splitFileName name).1 ++ "." ++ ext).toList =
          ((dropTail p.text.toList.reverse).dropWhile (· != '/')).reverse ++
            ((splitFileName name).1.toList ++ '.' :: ext.toList) := by
        simp
      have hcomponents := hp
      rw [components] at hcomponents
      rw [htext, hbehind, hcomponents, List.dropLast_concat]
      obtain ⟨hname', hinner⟩ := components_of_name hnew hlength
      have hend : String.ofList ((splitFileName name).1.toList ++ '.' :: ext.toList) =
          (splitFileName name).1 ++ "." ++ ext := by
        rw [← String.toList_inj]
        simp
      rcases hf with rfl | rfl
      · rw [hname', hend]
      · rw [hinner, hend]

end AspAtlas.Path
