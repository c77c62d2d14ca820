import AspAtlas.Disk.Basic
import AspAtlas.Reader.FileSystem
/-!
A disk as a source of program files. Paths that can be read have a bounded size, so there are only
finitely many of them.
-/
namespace AspAtlas.Disk

/-- Some list holds every character. -/
theorem exists_all_chars : ∃ all : List Char, ∀ c, c ∈ all := by
  refine ⟨(List.range 0x110000).map Char.ofNat,
    fun c => List.mem_map.2 ⟨c.toNat, ?_, c.ofNat_toNat⟩⟩
  have valid : c.toNat < 0xD800 ∨ 0xDFFF < c.toNat ∧ c.toNat < 0x110000 := c.valid
  exact List.mem_range.2 (by omega)

/-- Some list holds every text of a bounded length. -/
theorem exists_all_texts (n : Nat) : ∃ all : List (List Char), ∀ cs, cs.length ≤ n → cs ∈ all := by
  obtain ⟨chars, hchars⟩ := exists_all_chars
  induction n with
  | zero => exact ⟨[[]], fun cs h => by simp [List.length_eq_zero_iff.1 (Nat.le_zero.1 h)]⟩
  | succ n ih =>
    obtain ⟨all, hall⟩ := ih
    refine ⟨[] :: chars.flatMap fun c => all.map fun cs => c :: cs, fun cs h => ?_⟩
    cases cs with
    | nil => exact List.mem_cons_self
    | cons c cs =>
      refine List.mem_cons_of_mem _ (List.mem_flatMap.2 ⟨c, hchars c, List.mem_map.2 ⟨cs, ?_, rfl⟩⟩)
      exact hall cs (Nat.le_of_succ_le_succ h)

theorem length_le_byteSize (cs : List Char) : cs.length ≤ byteSize cs := by
  induction cs with
  | nil => exact Nat.zero_le _
  | cons c cs ih =>
    have := c.utf8Size_pos
    simp only [byteSize, List.length_cons]
    omega

theorem length_lt_of_locate {d : Disk} {p : Path} {target : Target} (h : d.locate p = .ok target) :
    p.text.toList.length < pathLimit := by
  simp only [locate] at h
  split at h
  · cases h
  · split at h
    · cases h
    · split at h
      · cases h
      · have := length_le_byteSize p.text.toList
        omega

theorem locate_of_readText {d : Disk} {p : Path} {text : String} (h : d.readText p = .ok text) :
    ∃ target, d.locate p = .ok target := by
  simp only [readText, readBytes] at h
  cases hl : d.locate p with
  | error cause => simp [hl] at h
  | ok target => exact ⟨target, rfl⟩

theorem finite_readText (d : Disk) :
    ∃ readable : List (List Component), ∀ p text, d.readText p = .ok text →
      p.components ∈ readable := by
  obtain ⟨all, hall⟩ := exists_all_texts pathLimit
  refine ⟨all.map Path.componentsOf, fun p text h => List.mem_map.2 ⟨p.text.toList, ?_, rfl⟩⟩
  obtain ⟨target, ht⟩ := locate_of_readText h
  exact hall _ (Nat.le_of_lt (length_lt_of_locate ht))

/-- The files of a disk, as a source of program texts. -/
def fileSystem (d : Disk) : FileSystem where
  isFile := d.isFile
  read := d.readText
  finite := d.finite_readText

end AspAtlas.Disk
