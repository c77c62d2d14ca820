import AspAtlas.Disk.Source
import AspAtlas.Proofs.Path.Components
/-!
Where paths lead on a disk. The place of a file depends on the components of its path only, and two
paths that go down from one folder lead to one place only if they have the same components.
-/
namespace AspAtlas

/-- The place that a component leads to from a folder. -/
def Component.follow (place : List String) : Component → List String
  | .root => []
  | .current => place
  | .parent => place.dropLast
  | .name text => place ++ [text]

/-- The place that a step leads to from a folder. -/
def Disk.Step.follow (place : List String) : Disk.Step → List String
  | .slash | .stay => place
  | .up => place.dropLast
  | .down name => place ++ [name]

namespace Disk

variable {d : Disk} {p q : Path} {place : List String} {bytes : ByteArray}

/-- The place that a path leads to if everything on the way is a folder. -/
def placeOf (d : Disk) (p : Path) : List String := p.components.foldl Component.follow d.current

theorem placeOf_congr (h : p.components = q.components) : d.placeOf p = d.placeOf q := by
  rw [placeOf, placeOf, h]

/-- A walk that ends at a file ends with a step down, at the place that the steps lead to. -/
theorem walk_file {start : List String} {steps : List Step}
    (h : d.walk start steps = .ok (.file place bytes)) :
    place = steps.foldl Step.follow start ∧ d.found? place = some (.file bytes) ∧
      ∃ name, steps.getLast? = some (.down name) := by
  fun_induction walk d start steps with
  | case1 => cases h
  | case2 start rest ih | case3 start rest ih | case4 start rest ih =>
    obtain ⟨hplace, hentry, name, hlast⟩ := ih h
    refine ⟨hplace, hentry, name, ?_⟩
    rw [List.getLast?_cons, hlast]
    rfl
  | case5 => cases h
  | case6 start name rest hname hentry ih =>
    obtain ⟨hplace, hfound, last, hlast⟩ := ih h
    refine ⟨hplace, hfound, last, ?_⟩
    rw [List.getLast?_cons, hlast]
    rfl
  | case7 start name rest hname found hentry hend =>
    cases h
    rw [List.isEmpty_iff] at hend
    subst hend
    exact ⟨rfl, hentry, name, rfl⟩
  | case8 => cases h
  | case9 => cases h
  | case10 => cases h

theorem follow_ofPart (place : List String) (part : List Char) :
    (Step.ofPart part).follow place =
      (Path.componentOf? part).toList.foldl Component.follow place := by
  by_cases hempty : part = []
  · simp [Step.ofPart, Path.componentOf?, Step.follow, hempty]
  · by_cases hdot : part = ['.']
    · simp [Step.ofPart, Path.componentOf?, Step.follow, hdot]
    · by_cases hup : part = ['.', '.']
      · simp [Step.ofPart, Path.componentOf?, Step.follow, Component.follow, hup]
      · simp [Step.ofPart, Path.componentOf?, Step.follow, Component.follow, hempty, hdot, hup]

theorem follow_parts (place : List String) (parts : List (List Char)) :
    (parts.map Step.ofPart).foldl Step.follow place =
      (parts.filterMap Path.componentOf?).foldl Component.follow place := by
  induction parts generalizing place with
  | nil => rfl
  | cons part rest ih =>
    rw [List.map_cons, List.foldl_cons, ih, follow_ofPart]
    cases h : Path.componentOf? part with
    | none => simp [List.filterMap_cons_none h]
    | some c => simp [List.filterMap_cons_some h]

/-- The steps of a path lead where its components do. -/
theorem follow_path {cs : List Char} (current : List String) :
    ((Path.parts cs).map Step.ofPart).foldl Step.follow (if cs.head? = some '/' then []
      else current) = (Path.componentsOf cs).foldl Component.follow current := by
  cases cs with
  | nil => rfl
  | cons c cs =>
    by_cases hc : c = '/'
    · subst hc
      have hslash : Step.ofPart [] = .slash := rfl
      simp only [Path.parts_slash, Path.componentsOf_slash, List.map_cons, List.foldl_cons,
        List.head?_cons, hslash, Step.follow, Component.follow, if_true]
      exact follow_parts [] (Path.parts cs)
    · obtain ⟨first, rest, hparts⟩ := Path.exists_parts cs
      rw [Path.componentsOf_cons hc hparts, Path.parts_cons hc hparts, List.foldl_append,
        List.map_cons, List.foldl_cons, follow_parts]
      have hrelative : (c :: cs).head? ≠ some '/' := by simpa using hc
      rw [if_neg hrelative]
      by_cases hdot : c :: first = ['.']
      · have hstay : Step.ofPart ['.'] = .stay := rfl
        simp [hdot, hstay, Step.follow, Component.follow]
      · rw [if_neg hdot, follow_ofPart]

theorem componentOf?_of_down {part : List Char} {name : String}
    (h : Step.ofPart part = .down name) :
    part ≠ ['.'] ∧ Path.componentOf? part = some (.name name) := by
  by_cases hempty : part = []
  · simp [Step.ofPart, hempty] at h
  · by_cases hdot : part = ['.']
    · simp [Step.ofPart, hdot] at h
    · by_cases hup : part = ['.', '.']
      · simp [Step.ofPart, hup] at h
      · simp only [Step.ofPart, hempty, hdot, hup, if_false, Step.down.injEq] at h
        simp [Path.componentOf?, hempty, hdot, hup, h]

theorem getLast?_filterMap_of_down {parts : List (List Char)} {name : String}
    (h : (parts.map Step.ofPart).getLast? = some (.down name)) :
    (parts.filterMap Path.componentOf?).getLast? = some (.name name) := by
  rw [List.getLast?_map, Option.map_eq_some_iff] at h
  obtain ⟨part, hpart, hdown⟩ := h
  obtain ⟨above, rfl⟩ := List.getLast?_eq_some_iff.mp hpart
  obtain ⟨-, hname⟩ := componentOf?_of_down hdown
  simp [hname]

/-- A path whose last step goes down has a name as its last component. -/
theorem getLast?_components {cs : List Char} {name : String}
    (h : ((Path.parts cs).map Step.ofPart).getLast? = some (.down name)) :
    (Path.componentsOf cs).getLast? = some (.name name) := by
  cases cs with
  | nil => cases h
  | cons c cs =>
    by_cases hc : c = '/'
    · subst hc
      rw [Path.parts_slash, List.map_cons, List.getLast?_cons_of_ne_nil] at h
      · rw [Path.componentsOf_slash, List.getLast?_cons, Path.inner, getLast?_filterMap_of_down h]
        rfl
      · simp [Path.parts_ne_nil]
    · obtain ⟨first, rest, hparts⟩ := Path.exists_parts cs
      rw [Path.parts_cons hc hparts] at h
      rw [Path.componentsOf_cons hc hparts, List.getLast?_append]
      cases rest with
      | nil =>
        have hdown : Step.ofPart (c :: first) = .down name := by simpa using h
        obtain ⟨hdot, hname⟩ := componentOf?_of_down hdown
        simp [hdot, hname]
      | cons part rest =>
        rw [List.map_cons, List.getLast?_cons_of_ne_nil (by simp)] at h
        rw [getLast?_filterMap_of_down h]
        rfl

/-- A path that leads to a file leads to the place of its components, and ends with a name. -/
theorem locate_file (h : d.locate p = .ok (.file place bytes)) :
    place = d.placeOf p ∧ d.found? place = some (.file bytes) ∧
      ∃ name, p.components.getLast? = some (.name name) := by
  simp only [locate] at h
  split at h
  · cases h
  · split at h
    · cases h
    · split at h
      · cases h
      · obtain ⟨hplace, hentry, name, hlast⟩ := walk_file h
        refine ⟨?_, hentry, name, getLast?_components hlast⟩
        rw [placeOf, Path.components, ← follow_path, hplace]
        simp only [Path.isAbsolute, beq_iff_eq]

theorem locate_of_read {text : String} (h : d.fileSystem.read p = .ok text) :
    ∃ bytes, d.locate p = .ok (.file (d.placeOf p) bytes) ∧ String.fromUTF8? bytes = some text := by
  have htext : d.readText p = .ok text := h
  simp only [readText, readBytes] at htext
  cases hlocate : d.locate p with
  | error cause => simp [hlocate] at htext
  | ok target =>
    cases target with
    | folder place => simp [hlocate] at htext
    | missing place closed => simp [hlocate] at htext
    | file place bytes =>
      obtain ⟨rfl, -⟩ := locate_file hlocate
      simp only [hlocate] at htext
      cases hdecode : String.fromUTF8? bytes with
      | none => simp [hdecode] at htext
      | some found =>
        simp only [hdecode, Except.ok.injEq] at htext
        exact ⟨bytes, rfl, htext ▸ hdecode⟩

/-- What can be read is a regular file, unless it is the null device. -/
theorem isFile_of_read {text : String} (h : d.fileSystem.read p = .ok text) :
    d.isFile p = (d.placeOf p != nullDevice) := by
  obtain ⟨bytes, hlocate, -⟩ := locate_of_read h
  rw [isFile, hlocate]

/-- So what is read under another name than the one of the null device is a regular file. -/
theorem isFile_of_name {text name : String} (h : d.fileSystem.read p = .ok text)
    (hlast : p.components.getLast? = some (.name name)) (hne : name ≠ "null") :
    d.isFile p = true := by
  obtain ⟨above, habove⟩ := List.getLast?_eq_some_iff.mp hlast
  have hplace : d.placeOf p = above.foldl Component.follow d.current ++ [name] := by
    rw [placeOf, habove, List.foldl_append]
    rfl
  rw [isFile_of_read h, bne_iff_ne, hplace]
  intro hnull
  have hname := congrArg List.getLast? hnull
  rw [List.getLast?_concat] at hname
  exact hne (Option.some.inj hname)

/-- What is read at one place is one text. -/
theorem read_unique {s t : String} (h : d.placeOf p = d.placeOf q)
    (hs : d.fileSystem.read p = .ok s) (ht : d.fileSystem.read q = .ok t) : s = t := by
  obtain ⟨bytes, hp, hbytes⟩ := locate_of_read hs
  obtain ⟨other, hq, hother⟩ := locate_of_read ht
  obtain ⟨-, hentry, -⟩ := locate_file hp
  obtain ⟨-, hentry', -⟩ := locate_file hq
  rw [h, hentry', Option.some.injEq, Entry.file.injEq] at hentry
  subst hentry
  rw [hbytes, Option.some.injEq] at hother
  exact hother

theorem foldl_follow_names (place names : List String) :
    (names.map Component.name).foldl Component.follow place = place ++ names := by
  induction names generalizing place with
  | nil => simp
  | cons name rest ih => simp [ih, Component.follow]

/-- Of paths that go down from one folder, two lead to one place only if they are the same. -/
theorem placeOf_down {base : List Component} {names names' : List String}
    (hp : p.components = base ++ names.map .name) (hq : q.components = base ++ names'.map .name)
    (h : d.placeOf p = d.placeOf q) : p.components = q.components := by
  rw [placeOf, placeOf, hp, hq, List.foldl_append, List.foldl_append, foldl_follow_names,
    foldl_follow_names, List.append_cancel_left_eq] at h
  rw [hp, hq, h]

end Disk
end AspAtlas
