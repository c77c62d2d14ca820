import AspAtlas.Proofs.Disk.Places
import AspAtlas.Proofs.Ordered.Map
/-!
Writing to a disk. Folders stay folders and files stay files, so that paths go on leading where they
led; what a file holds in the end is what was written to its place last.
-/
namespace AspAtlas.Disk

variable {d mid d' : Disk} {p : Path} {place : List String} {bytes : ByteArray} {text : String}

/-- One disk has grown out of another: there are more files and folders, and
files may hold something else. -/
structure Grows (d d' : Disk) : Prop where
  current : d'.current = d.current
  folder : ∀ place, d.found? place = some .folder → d'.found? place = some .folder
  file : ∀ place bytes, d.found? place = some (.file bytes) →
    ∃ bytes', d'.found? place = some (.file bytes')

namespace Grows

theorem refl (d : Disk) : d.Grows d := ⟨rfl, fun _ h => h, fun _ bytes h => ⟨bytes, h⟩⟩

theorem trans (h : d.Grows mid) (h' : mid.Grows d') : d.Grows d' := by
  refine ⟨h'.current.trans h.current, fun place hf => h'.folder place (h.folder place hf), ?_⟩
  intro place bytes hf
  obtain ⟨bytes', hf⟩ := h.file place bytes hf
  exact h'.file place bytes' hf

theorem placeOf (h : d.Grows d') (p : Path) : d'.placeOf p = d.placeOf p := by
  rw [Disk.placeOf, Disk.placeOf, h.current]

/-- A walk to a file leads to the same file on a disk that has grown. -/
theorem walk_file (h : d.Grows d') {start : List String} {steps : List Step}
    (hwalk : d.walk start steps = .ok (.file place bytes)) :
    ∃ bytes', d'.walk start steps = .ok (.file place bytes') := by
  fun_induction walk d start steps with
  | case1 => cases hwalk
  | case2 start rest ih | case3 start rest ih | case4 start rest ih =>
    rw [walk]
    exact ih hwalk
  | case5 => cases hwalk
  | case6 start name rest hname hentry ih =>
    rw [walk, if_neg hname, h.folder _ hentry]
    exact ih hwalk
  | case7 start name rest hname found hentry hend =>
    cases hwalk
    obtain ⟨bytes', hentry'⟩ := h.file _ _ hentry
    rw [walk, if_neg hname, hentry']
    exact ⟨bytes', if_pos hend⟩
  | case8 => cases hwalk
  | case9 => cases hwalk
  | case10 => cases hwalk

/-- A walk to a folder leads there on a disk that has grown. -/
theorem walk_folder (h : d.Grows d') {start : List String} {steps : List Step}
    (hwalk : d.walk start steps = .ok (.folder place)) :
    d'.walk start steps = .ok (.folder place) := by
  fun_induction walk d start steps with
  | case1 => exact hwalk
  | case2 start rest ih | case3 start rest ih | case4 start rest ih =>
    rw [walk]
    exact ih hwalk
  | case5 => cases hwalk
  | case6 start name rest hname hentry ih =>
    rw [walk, if_neg hname, h.folder _ hentry]
    exact ih hwalk
  | case7 => cases hwalk
  | case8 => cases hwalk
  | case9 => cases hwalk
  | case10 => cases hwalk

/-- What a walk leads to when there was nothing before. -/
theorem walk_missing (h : d.Grows d') {start : List String} {steps : List Step}
    (hwalk : d.walk start steps = .ok (.missing place false)) :
    d'.walk start steps = .ok (match d'.found? place with
      | some .folder => .folder place
      | some (.file bytes) => .file place bytes
      | none => .missing place false) := by
  fun_induction walk d start steps with
  | case1 => cases hwalk
  | case2 start rest ih | case3 start rest ih | case4 start rest ih =>
    rw [walk]
    exact ih hwalk
  | case5 => cases hwalk
  | case6 start name rest hname hentry ih =>
    rw [walk, if_neg hname, h.folder _ hentry]
    exact ih hwalk
  | case7 => cases hwalk
  | case8 => cases hwalk
  | case9 start name rest hname hentry hslashes =>
    simp only [Except.ok.injEq, Target.missing.injEq, Bool.not_eq_eq_eq_not,
      Bool.not_false] at hwalk
    obtain ⟨rfl, hend⟩ := hwalk
    obtain rfl := List.isEmpty_iff.mp hend
    rw [walk, if_neg hname]
    cases d'.found? (start ++ [name]) with
    | none => rfl
    | some entry => cases entry <;> rfl
  | case10 => cases hwalk

theorem locate_eq_walk (h : d.Grows d') {target : Target} (hlocate : d.locate p = .ok target) :
    ∃ start steps, d.walk start steps = .ok target ∧ d'.locate p = d'.walk start steps := by
  simp only [locate] at hlocate ⊢
  split at hlocate
  · cases hlocate
  · split at hlocate
    · cases hlocate
    · split at hlocate
      · cases hlocate
      · rename_i hnul hempty hlong
        rw [if_neg hnul, if_neg hempty, if_neg hlong, h.current]
        exact ⟨_, _, hlocate, rfl⟩

theorem locate_file (h : d.Grows d') (hlocate : d.locate p = .ok (.file place bytes)) :
    ∃ bytes', d'.locate p = .ok (.file place bytes') := by
  obtain ⟨start, steps, hwalk, hsame⟩ := h.locate_eq_walk hlocate
  rw [hsame]
  exact h.walk_file hwalk

theorem locate_folder (h : d.Grows d') (hlocate : d.locate p = .ok (.folder place)) :
    d'.locate p = .ok (.folder place) := by
  obtain ⟨start, steps, hwalk, hsame⟩ := h.locate_eq_walk hlocate
  rw [hsame]
  exact h.walk_folder hwalk

theorem locate_missing (h : d.Grows d') (hlocate : d.locate p = .ok (.missing place false)) :
    d'.locate p = .ok (match d'.found? place with
      | some .folder => .folder place
      | some (.file bytes) => .file place bytes
      | none => .missing place false) := by
  obtain ⟨start, steps, hwalk, hsame⟩ := h.locate_eq_walk hlocate
  rw [hsame]
  exact h.walk_missing hwalk

end Grows

theorem walk_missing {start : List String} {steps : List Step} {closed : Bool}
    (h : d.walk start steps = .ok (.missing place closed)) : d.found? place = none := by
  fun_induction walk d start steps with
  | case1 => cases h
  | case2 start rest ih | case3 start rest ih | case4 start rest ih => exact ih h
  | case5 => cases h
  | case6 start name rest hname hentry ih => exact ih h
  | case7 => cases h
  | case8 => cases h
  | case9 start name rest hname hentry hslashes =>
    cases h
    exact hentry
  | case10 => cases h

/-- Nothing stands where a path leads to nothing. -/
theorem locate_missing {closed : Bool} (h : d.locate p = .ok (.missing place closed)) :
    d.found? place = none := by
  obtain ⟨start, steps, hwalk, -⟩ := (Grows.refl d).locate_eq_walk h
  exact walk_missing hwalk

theorem found?_put (d : Disk) (place q : List String) (e : Entry) :
    (d.put place e).found? q = if q = place then some e else d.found? q := by
  rw [found?, put, OrderedMap.get?_insert]
  simp only [Std.LawfulEqCmp.compare_eq_iff_eq]
  split
  · rfl
  · rw [found?]

theorem grows_put {e : Entry} (hfile : e = .folder → d.found? place = none)
    (hfolder : d.found? place ≠ some .folder) : d.Grows (d.put place e) := by
  refine ⟨rfl, fun q hq => ?_, fun q bytes hq => ?_⟩
  · have hne : q ≠ place := by
      rintro rfl
      exact hfolder hq
    rw [found?_put, if_neg hne]
    exact hq
  · rw [found?_put]
    split
    · rename_i he
      cases e with
      | file new => exact ⟨new, rfl⟩
      | folder =>
        rw [he, hfile rfl] at hq
        cases hq
    · exact ⟨bytes, hq⟩

theorem fromUTF8?_toUTF8 (s : String) : String.fromUTF8? s.toUTF8 = some s :=
  dif_pos s.isValidUTF8

/-- What has been written to a path stands at its place, and the path leads there. -/
theorem writeText_eq_ok (h : d.writeText p text = .ok mid) :
    mid = d.put (d.placeOf p) (.file text.toUTF8) ∧ d.Grows mid ∧
      mid.locate p = .ok (.file (d.placeOf p) text.toUTF8) := by
  have hself (q : List String) :
      (d.put q (.file text.toUTF8)).found? q = some (.file text.toUTF8) := by
    rw [found?_put, if_pos rfl]
  simp only [writeText, writeBytes] at h
  cases hlocate : d.locate p with
  | error cause => simp [hlocate] at h
  | ok target =>
    cases target with
    | folder place => simp [hlocate] at h
    | file place bytes =>
      simp only [hlocate, Except.ok.injEq] at h
      subst h
      obtain ⟨rfl, hentry, -⟩ := locate_file hlocate
      have hgrows : d.Grows (d.put (d.placeOf p) (.file text.toUTF8)) :=
        grows_put nofun (by simp [hentry])
      obtain ⟨bytes', hfound⟩ := hgrows.locate_file hlocate
      obtain ⟨-, hnew, -⟩ := locate_file hfound
      rw [hself, Option.some.injEq, Entry.file.injEq] at hnew
      exact ⟨rfl, hgrows, hnew ▸ hfound⟩
    | missing place closed =>
      cases closed with
      | true => simp [hlocate] at h
      | false =>
        simp only [hlocate, Except.ok.injEq] at h
        subst h
        have hgrows : d.Grows (d.put place (.file text.toUTF8)) :=
          grows_put nofun (by simp [locate_missing hlocate])
        have hfound := hgrows.locate_missing hlocate
        rw [hself place] at hfound
        obtain ⟨hplace, -⟩ := locate_file hfound
        rw [hgrows.placeOf] at hplace
        subst hplace
        exact ⟨rfl, hgrows, hfound⟩

/-- A path that leads to a file, or to a place for one. -/
def Writable (d : Disk) (p : Path) : Bool :=
  match d.locate p with
  | .ok (.file _ _) | .ok (.missing _ false) => true
  | _ => false

theorem writable_iff : d.Writable p ↔ (∃ place bytes, d.locate p = .ok (.file place bytes)) ∨
    ∃ place, d.locate p = .ok (.missing place false) := by
  rw [Writable]
  cases d.locate p with
  | error cause => simp
  | ok target =>
    cases target with
    | file place bytes | folder place => simp
    | missing place closed => cases closed <;> simp

theorem writable_iff_writeText (text : String) :
    d.Writable p ↔ ∃ d', d.writeText p text = .ok d' := by
  rw [Writable, writeText, writeBytes]
  cases d.locate p with
  | error cause => simp
  | ok target =>
    cases target with
    | file place bytes | folder place => simp
    | missing place closed => cases closed <;> simp

/-- What can be written to can be written to when another file has been written. -/
theorem writable_kept {q : Path} (h : d.Writable p) (hwrite : d.writeText q text = .ok d') :
    d'.Writable p := by
  obtain ⟨rfl, hgrows, -⟩ := writeText_eq_ok hwrite
  rw [writable_iff] at h ⊢
  obtain ⟨place, bytes, hlocate⟩ | ⟨place, hlocate⟩ := h
  · obtain ⟨bytes', hlocate'⟩ := hgrows.locate_file hlocate
    exact .inl ⟨place, bytes', hlocate'⟩
  · have hfound := hgrows.locate_missing hlocate
    rw [found?_put, locate_missing hlocate] at hfound
    by_cases hplace : place = d.placeOf q
    · rw [if_pos hplace] at hfound
      exact .inl ⟨place, text.toUTF8, hfound⟩
    · rw [if_neg hplace] at hfound
      exact .inr ⟨place, hfound⟩

/-- A folder that is there is not made again. -/
theorem createFolders_of_locate (hp : withoutEndSlash p = p)
    (h : d.locate p = .ok (.folder place)) : d.createFolders p = (.ok (), d) := by
  have hfolder : d.isFolder p = true := by
    rw [isFolder, h]
  have hcreate : d.createFolder p = .error .exists := by
    rw [createFolder, hp, h]
  rw [createFolders, ancestors]
  split
  · rfl
  · rw [createChain, hcreate]
    simp only [hfolder, if_true]

/-- One disk comes from another when folders have been made. -/
structure AddsFolders (d d' : Disk) : Prop where
  grows : d.Grows d'
  kept : ∀ place bytes, d.found? place = some (.file bytes) →
    d'.found? place = some (.file bytes)

namespace AddsFolders

theorem refl (d : Disk) : d.AddsFolders d := ⟨.refl d, fun _ _ h => h⟩

theorem trans (h : d.AddsFolders mid) (h' : mid.AddsFolders d') : d.AddsFolders d' :=
  ⟨h.grows.trans h'.grows, fun place bytes hf => h'.kept place bytes (h.kept place bytes hf)⟩

theorem of_createFolder (h : d.createFolder p = .ok mid) : d.AddsFolders mid := by
  simp only [createFolder] at h
  cases hlocate : d.locate (withoutEndSlash p) with
  | error cause => simp [hlocate] at h
  | ok target =>
    cases target with
    | file place bytes => simp [hlocate] at h
    | folder place => simp [hlocate] at h
    | missing place closed =>
      simp only [hlocate, Except.ok.injEq] at h
      subst h
      have hnone := locate_missing hlocate
      refine ⟨grows_put (fun _ => hnone) (by simp [hnone]), fun q bytes hq => ?_⟩
      rw [found?_put, if_neg]
      · exact hq
      · rintro rfl
        simp [hnone] at hq

theorem of_createChain (d : Disk) (ps : List Path) : d.AddsFolders (d.createChain ps).2 := by
  induction ps generalizing d with
  | nil => exact .refl d
  | cons p above ih =>
    have habove := ih d
    rw [createChain]
    split
    · split
      · rename_i _ _ mid hchain
        rw [hchain] at habove
        apply habove.trans
        cases hmade : mid.createFolder p with
        | ok made => exact of_createFolder hmade
        | error cause => exact .refl mid
      · exact habove
    · cases hmade : d.createFolder p with
      | ok made => exact of_createFolder hmade
      | error cause => exact .refl d

end AddsFolders

/-- A disk on which texts have been written to paths one after the other, with folders made in
between. -/
inductive Writes : Disk → List (Path × String) → Disk → Prop
  | done {d : Disk} : Writes d [] d
  | folders {d mid d' : Disk} {log : List (Path × String)} (h : d.AddsFolders mid)
      (hrest : Writes mid log d') : Writes d log d'
  | text {d mid d' : Disk} {p : Path} {text : String} {log : List (Path × String)}
      (h : d.writeText p text = .ok mid) (hrest : Writes mid log d') :
      Writes d ((p, text) :: log) d'

/-- What has been written last among what has been written to a place. -/
def lastAt (d : Disk) (log : List (Path × String)) (place : List String) : Option (Path × String) :=
  (log.filter fun e => d.placeOf e.1 = place).getLast?

theorem lastAt_cons (d : Disk) (e : Path × String) (log : List (Path × String))
    (place : List String) : d.lastAt (e :: log) place =
      if d.placeOf e.1 = place then some ((d.lastAt log place).getD e) else d.lastAt log place := by
  by_cases h : d.placeOf e.1 = place <;> simp [lastAt, h, List.getLast?_cons]

theorem lastAt_map {α : Type} (d : Disk) (f : α → Path × String) (xs : List α)
    (place : List String) :
    d.lastAt (xs.map f) place =
      ((xs.filter fun x => d.placeOf (f x).1 = place).getLast?).map f := by
  rw [lastAt, List.filter_map, List.getLast?_map]
  rfl

theorem Grows.lastAt (h : d.Grows d') : d'.lastAt = d.lastAt := by
  funext log place
  simp only [Disk.lastAt, h.placeOf]

namespace Writes

variable {log more : List (Path × String)}

theorem grows (h : d.Writes log d') : d.Grows d' := by
  induction h with
  | done => exact .refl _
  | folders h _ ih => exact h.grows.trans ih
  | text h _ ih => exact (writeText_eq_ok h).2.1.trans ih

theorem append (h : d.Writes log mid) (h' : mid.Writes more d') : d.Writes (log ++ more) d' := by
  induction h with
  | done => exact h'
  | folders h _ ih => exact .folders h (ih h')
  | text h _ ih => exact .text h (ih h')

/-- A file holds what was written to its place last, or what it held before. -/
theorem file_at (h : d.Writes log d') (hfile : d.found? place = some (.file bytes)) :
    d'.found? place =
      some (.file (((d.lastAt log place).map fun e => e.2.toUTF8).getD bytes)) := by
  induction h generalizing bytes with
  | done => exact hfile
  | folders h _ ih =>
    rw [ih (h.kept _ _ hfile), h.grows.lastAt]
  | @text d mid d' p text log h _ ih =>
    obtain ⟨rfl, hgrows, -⟩ := writeText_eq_ok h
    rw [lastAt_cons, ← hgrows.lastAt]
    by_cases hplace : d.placeOf p = place
    · subst hplace
      have hwritten : (d.put (d.placeOf p) (.file text.toUTF8)).found? (d.placeOf p) =
          some (.file text.toUTF8) := by
        rw [found?_put, if_pos rfl]
      rw [ih hwritten, if_pos rfl]
      cases (Disk.lastAt _ log (d.placeOf p)) <;> rfl
    · have hkept : (d.put (d.placeOf p) (.file text.toUTF8)).found? place = some (.file bytes) := by
        rw [found?_put, if_neg (Ne.symm hplace)]
        exact hfile
      rw [ih hkept, if_neg hplace]

/-- A text stays what it is when nothing is written to its place. -/
theorem readText_kept (h : d.Writes log d') (hread : d.readText p = .ok text)
    (hnone : d.lastAt log (d.placeOf p) = none) : d'.readText p = .ok text := by
  obtain ⟨bytes, hlocate, hdecode⟩ := locate_of_read hread
  obtain ⟨-, hentry, -⟩ := locate_file hlocate
  obtain ⟨bytes', hfound⟩ := h.grows.locate_file hlocate
  obtain ⟨-, hheld, -⟩ := locate_file hfound
  rw [h.file_at hentry, hnone, Option.map_none, Option.getD_none, Option.some.injEq,
    Entry.file.injEq] at hheld
  subst hheld
  simp only [Disk.readText, readBytes, hfound, hdecode]

/-- Every path that was written to leads to its place, where the text written there last is read. -/
theorem readText (h : d.Writes log d') {e : Path × String} (he : e ∈ log) :
    ∃ last, d.lastAt log (d.placeOf e.1) = some last ∧ d'.readText e.1 = .ok last.2 := by
  induction h with
  | done => cases he
  | folders h _ ih =>
    obtain ⟨last, hlast, hread⟩ := ih he
    rw [h.grows.lastAt, h.grows.placeOf] at hlast
    exact ⟨last, hlast, hread⟩
  | @text d mid d' p text log h hrest ih =>
    obtain ⟨-, hgrows, hlocate⟩ := writeText_eq_ok h
    rw [lastAt_cons]
    rcases List.mem_cons.mp he with rfl | he
    · rw [if_pos rfl]
      refine ⟨_, rfl, ?_⟩
      obtain ⟨-, hentry, -⟩ := locate_file hlocate
      obtain ⟨bytes, hfound⟩ := hrest.grows.locate_file hlocate
      obtain ⟨-, hheld, -⟩ := locate_file hfound
      rw [hrest.file_at hentry, hgrows.lastAt, Option.some.injEq, Entry.file.injEq] at hheld
      subst hheld
      simp only [Disk.readText, readBytes, hfound]
      cases d.lastAt log (d.placeOf p) <;> simp only [Option.map_none, Option.map_some,
        Option.getD_none, Option.getD_some, fromUTF8?_toUTF8]
    · obtain ⟨last, hlast, hread⟩ := ih he
      rw [hgrows.lastAt, hgrows.placeOf] at hlast
      refine ⟨last, ?_, hread⟩
      rw [hlast]
      simp

/-- A path that was written to ends with a name. -/
theorem ends_with_name (h : d.Writes log d') {e : Path × String} (he : e ∈ log) :
    ∃ name, e.1.components.getLast? = some (.name name) := by
  obtain ⟨last, -, hread⟩ := h.readText he
  obtain ⟨bytes, hlocate, -⟩ := locate_of_read hread
  exact (locate_file hlocate).2.2

end Writes

end AspAtlas.Disk
