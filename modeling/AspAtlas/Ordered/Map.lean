/-!
Finite maps with ascending keys. Equal maps are equal as data, and a map lists its entries in the
order of its keys.
-/
namespace AspAtlas

/-- A finite map, listed by ascending keys. -/
structure OrderedMap (κ ν : Type) [Ord κ] where
  entries : List (κ × ν)
  ascending : entries.Pairwise fun a b => compare a.1 b.1 = .lt

namespace OrderedMap

variable {κ ν : Type} [Ord κ]

/-- The map without entries. -/
def empty : OrderedMap κ ν := ⟨[], .nil⟩

instance : Inhabited (OrderedMap κ ν) := ⟨empty⟩

instance [BEq κ] [BEq ν] : BEq (OrderedMap κ ν) := ⟨fun a b => a.entries == b.entries⟩

@[ext] theorem ext {a b : OrderedMap κ ν} (h : a.entries = b.entries) : a = b := by
  cases a
  cases b
  simp_all

/-- The entry of a key in a list of entries. -/
def lookup (k : κ) : List (κ × ν) → Option ν
  | [] => none
  | e :: rest => if compare k e.1 = .eq then some e.2 else lookup k rest

/-- What the map holds at a key. -/
def get? (m : OrderedMap κ ν) (k : κ) : Option ν := lookup k m.entries

/-- Puts `f` of the present value at a key, keeping the order of keys. -/
def alterEntries (k : κ) (f : Option ν → ν) : List (κ × ν) → List (κ × ν)
  | [] => [(k, f none)]
  | e :: rest =>
    match compare k e.1 with
    | .lt => (k, f none) :: e :: rest
    | .eq => (e.1, f (some e.2)) :: rest
    | .gt => e :: alterEntries k f rest

theorem mem_alterEntries {k : κ} {f : Option ν → ν} {es : List (κ × ν)} {x : κ × ν}
    (h : x ∈ alterEntries k f es) : x.1 = k ∨ ∃ e ∈ es, x.1 = e.1 := by
  induction es with
  | nil =>
    simp only [alterEntries, List.mem_singleton] at h
    exact .inl (by rw [h])
  | cons e rest ih =>
    simp only [alterEntries] at h
    split at h
    · rcases List.mem_cons.1 h with rfl | h
      · exact .inl rfl
      · exact .inr ⟨x, h, rfl⟩
    · rcases List.mem_cons.1 h with rfl | h
      · exact .inr ⟨e, List.mem_cons_self, rfl⟩
      · exact .inr ⟨x, List.mem_cons_of_mem _ h, rfl⟩
    · rcases List.mem_cons.1 h with rfl | h
      · exact .inr ⟨x, List.mem_cons_self, rfl⟩
      · rcases ih h with h | ⟨e', he, h⟩
        · exact .inl h
        · exact .inr ⟨e', List.mem_cons_of_mem _ he, h⟩

theorem alterEntries_ascending [Std.TransOrd κ] {k : κ} {f : Option ν → ν} {es : List (κ × ν)}
    (h : es.Pairwise fun a b => compare a.1 b.1 = .lt) :
    (alterEntries k f es).Pairwise fun a b => compare a.1 b.1 = .lt := by
  induction es with
  | nil => simp [alterEntries]
  | cons e rest ih =>
    obtain ⟨he, hrest⟩ := List.pairwise_cons.1 h
    simp only [alterEntries]
    split
    · rename_i hlt
      refine List.pairwise_cons.2 ⟨fun b hb => ?_, h⟩
      rcases List.mem_cons.1 hb with rfl | hb
      · exact hlt
      · exact Std.TransCmp.lt_trans hlt (he b hb)
    · exact List.pairwise_cons.2 ⟨he, hrest⟩
    · rename_i hgt
      refine List.pairwise_cons.2 ⟨fun b hb => ?_, ih hrest⟩
      rcases mem_alterEntries hb with hk | ⟨e', he', hk⟩
      · rw [hk]
        exact Std.OrientedCmp.gt_iff_lt.1 hgt
      · rw [hk]
        exact he e' he'

variable [Std.TransOrd κ]

/-- The map with `f` of its present value put at a key. -/
def alter (m : OrderedMap κ ν) (k : κ) (f : Option ν → ν) : OrderedMap κ ν :=
  ⟨alterEntries k f m.entries, alterEntries_ascending m.ascending⟩

/-- The map with a value put at a key. -/
def insert (m : OrderedMap κ ν) (k : κ) (v : ν) : OrderedMap κ ν := m.alter k fun _ => v

/-- The map of a list of entries; of entries with one key the last counts. -/
def ofList (es : List (κ × ν)) : OrderedMap κ ν := es.foldl (fun m e => m.insert e.1 e.2) empty

omit [Std.TransOrd κ] in
/-- The keys, ascending. -/
def keys (m : OrderedMap κ ν) : List κ := m.entries.map Prod.fst

omit [Std.TransOrd κ] in
/-- The values, by ascending keys. -/
def values (m : OrderedMap κ ν) : List ν := m.entries.map Prod.snd

omit [Std.TransOrd κ] in
/-- The number of keys. -/
def size (m : OrderedMap κ ν) : Nat := m.entries.length

end OrderedMap
end AspAtlas
