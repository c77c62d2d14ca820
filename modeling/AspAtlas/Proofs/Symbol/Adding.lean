import AspAtlas.Proofs.Symbol.Totals
/-!
What holds of a registry after any sequence of additions. Its index leads every name and location to
the last occurrence that was added with them, its merged entries gather the occurrences of one
signature each, and only occurrences of one signature are ever merged.
-/
namespace AspAtlas

/-- At the end of a list with one more element stands that element. -/
theorem getElem?_concat_eq_some_iff {α : Type} {xs : List α} {x y : α} {i : Nat} :
    (xs ++ [x])[i]? = some y ↔ xs[i]? = some y ∨ i = xs.length ∧ x = y := by
  rcases Nat.lt_trichotomy i xs.length with hlt | rfl | hgt
  · rw [List.getElem?_append_left hlt]
    constructor
    · exact .inl
    · rintro (h | ⟨he, -⟩)
      · exact h
      · omega
  · simp
  · have hlength : (xs ++ [x]).length ≤ i := by
      rw [List.length_append, List.length_singleton]
      omega
    rw [List.getElem?_eq_none hlength, List.getElem?_eq_none (Nat.le_of_lt hgt)]
    constructor
    · intro h
      cases h
    · rintro (h | ⟨he, -⟩)
      · cases h
      · omega

namespace Symbol

/-- A symbol has the name of a key and stands at its location. -/
def IsAt (s : Symbol) (k : OccurrenceKey) : Prop :=
  s.name = k.name ∧ (s.location == k.location) = true

instance (s : Symbol) (k : OccurrenceKey) : Decidable (s.IsAt k) :=
  inferInstanceAs (Decidable (_ ∧ _))

/-- The last of some symbols with the name and at the location of a key has this index. -/
structure IsLastAt (symbols : List Symbol) (k : OccurrenceKey) (i : Nat) : Prop where
  found : ∃ s, symbols[i]? = some s ∧ s.IsAt k
  last : ∀ j s, i < j → symbols[j]? = some s → ¬ s.IsAt k

/-- An entry has the counts of some symbols taken together and the first of their locations, and is
documented, like one of them, exactly if one of them is. -/
structure Gathers (symbols : List Symbol) (entry : Symbol) : Prop where
  tallies : Tallies symbols entry
  documented : entry.documentation.isSome ↔ ∃ s ∈ symbols, s.documentation.isSome
  documentation : ∀ text, entry.documentation = some text →
    ∃ s ∈ symbols, s.documentation = some text

/-- Two entries in one, if they have one signature. -/
def mergeAlike? (a b : Symbol) : Option Symbol :=
  if a.signature = b.signature then some (a.merge b) else none

variable {symbols : List Symbol} {s entry : Symbol} {k : OccurrenceKey} {i : Nat}

theorem IsNew.regular (h : IsNew s) : s.Regular := by
  obtain ⟨name, arguments, location, documentation, rfl⟩ := h
  rfl

theorem isAt_iff : s.IsAt k ↔ compare s.key k = .eq := by
  rw [OccurrenceKey.compare_eq_iff, IsAt, Location.beq_iff, Path.beq_iff]
  constructor
  · rintro ⟨hname, hfile, hbegin, hstop⟩
    exact ⟨hbegin, hstop, hname, hfile⟩
  · rintro ⟨hbegin, hstop, hname, hfile⟩
    exact ⟨hname, hfile, hbegin, hstop⟩

/-- A symbol that comes behind others is the last at its key. -/
theorem isLastAt_concat_of_isAt (h : s.IsAt k) :
    IsLastAt (symbols ++ [s]) k i ↔ i = symbols.length := by
  constructor
  · intro hlast
    obtain ⟨t, ht, -⟩ := hlast.found
    rcases getElem?_concat_eq_some_iff.mp ht with hbefore | ⟨he, -⟩
    · have hlt := (List.getElem?_eq_some_iff.mp hbefore).1
      exact absurd h (hlast.last _ s hlt (getElem?_concat_eq_some_iff.mpr (.inr ⟨rfl, rfl⟩)))
    · exact he
  · rintro rfl
    refine ⟨⟨s, getElem?_concat_eq_some_iff.mpr (.inr ⟨rfl, rfl⟩), h⟩, ?_⟩
    intro j t hj ht
    rcases getElem?_concat_eq_some_iff.mp ht with hbefore | ⟨he, -⟩
    · have hlt := (List.getElem?_eq_some_iff.mp hbefore).1
      omega
    · omega

/-- At other keys it changes nothing. -/
theorem isLastAt_concat_of_not_isAt (h : ¬ s.IsAt k) :
    IsLastAt (symbols ++ [s]) k i ↔ IsLastAt symbols k i := by
  constructor
  · intro hlast
    obtain ⟨t, ht, hat⟩ := hlast.found
    constructor
    · rcases getElem?_concat_eq_some_iff.mp ht with ht | ⟨-, rfl⟩
      · exact ⟨t, ht, hat⟩
      · exact absurd hat h
    · intro j u hj hu
      exact hlast.last j u hj (getElem?_concat_eq_some_iff.mpr (.inl hu))
  · intro hlast
    obtain ⟨t, ht, hat⟩ := hlast.found
    constructor
    · exact ⟨t, getElem?_concat_eq_some_iff.mpr (.inl ht), hat⟩
    · intro j u hj hu
      rcases getElem?_concat_eq_some_iff.mp hu with hu | ⟨-, rfl⟩
      · exact hlast.last j u hj hu
      · exact h

/-- Symbols of one signature that are merged in any order are gathered. -/
theorem Merging.gathers (h : Merging symbols entry) (hkindred : Kindred symbols) :
    Gathers symbols entry := by
  refine ⟨h.tallies hkindred, ?_, ?_⟩
  · rcases h.documentation_mem with ⟨hnone, hall⟩ | ⟨s, hs, hsome, hdocumentation⟩
    · rw [hnone]
      constructor
      · intro hsome
        cases hsome
      · rintro ⟨s, hs, hsome⟩
        rw [hall s hs] at hsome
        exact hsome
    · rw [hdocumentation]
      exact ⟨fun _ => ⟨s, hs, hsome⟩, fun _ => hsome⟩
  · intro text htext
    rcases h.documentation_mem with ⟨hnone, -⟩ | ⟨s, hs, -, hdocumentation⟩
    · rw [hnone] at htext
      cases htext
    · exact ⟨s, hs, hdocumentation.symm.trans htext⟩

end Symbol

namespace SymbolRegistry

/-- A registry is what additions of some occurrences make of it. -/
structure Registers (r : SymbolRegistry) (symbols : List Symbol) : Prop where
  occurrences : r.occurrences.toList = symbols
  index : ∀ k i, r.byLocation[k]? = some i ↔ Symbol.IsLastAt symbols k i
  indexed : ∀ s ∈ symbols, (r.byLocation[s.key]?).isSome
  signatures : ∀ signature, (r.get? signature).isSome ↔ ∃ s ∈ symbols, s.signature = signature
  entries : ∀ signature entry, r.get? signature = some entry → entry.signature = signature ∧
    entry.Gathers (symbols.filter fun s => s.signature == signature)

/-- The registry with one more occurrence, if that is merged with none of another signature. -/
def addAlike? (r : SymbolRegistry) (s : Symbol) : Option SymbolRegistry := do
  let entry ← match r.get? s.signature with
    | some present => present.mergeAlike? s
    | none => some s
  some { r.add s with merged := r.merged.insert s.signature entry }

/-- Every entry has the signature that leads to it. -/
def SignaturesFit (r : SymbolRegistry) : Prop :=
  ∀ signature entry, r.get? signature = some entry → entry.signature = signature

variable {r : SymbolRegistry} {symbols : List Symbol} {s : Symbol}

theorem index_add (hr : r.occurrences.toList = symbols)
    (h : ∀ k i, r.byLocation[k]? = some i ↔ Symbol.IsLastAt symbols k i) (s : Symbol)
    (k : OccurrenceKey)
    (i : Nat) : (r.add s).byLocation[k]? = some i ↔ Symbol.IsLastAt (symbols ++ [s]) k i := by
  have hsize : r.occurrences.size = symbols.length := by
    rw [← hr, Array.length_toList]
  have hadd : (r.add s).byLocation[k]? = if compare s.key k = .eq then some symbols.length
      else r.byLocation[k]? := by
    rw [← hsize]
    exact Std.TreeMap.getElem?_insert
  rw [hadd]
  by_cases hk : s.IsAt k
  · rw [if_pos (Symbol.isAt_iff.mp hk), Symbol.isLastAt_concat_of_isAt hk,
      Option.some.injEq, eq_comm]
  · rw [if_neg fun he => hk (Symbol.isAt_iff.mpr he), Symbol.isLastAt_concat_of_not_isAt hk]
    exact h k i

theorem ofList_concat (symbols : List Symbol) (s : Symbol) :
    ofList (symbols ++ [s]) = (ofList symbols).add s := by
  rw [ofList, List.foldl_append]
  rfl

/-- The index leads to the last occurrence of every key. -/
theorem index_ofList (symbols : List Symbol) (k : OccurrenceKey) (i : Nat) :
    (ofList symbols).byLocation[k]? = some i ↔ Symbol.IsLastAt symbols k i := by
  induction symbols using List.reverseRecOn generalizing k i with
  | nil =>
    constructor
    · intro h
      simp [ofList] at h
    · intro h
      obtain ⟨s, hs, -⟩ := h.found
      simp at hs
  | append_singleton symbols s ih =>
    rw [ofList_concat]
    exact index_add (occurrences_ofList symbols) ih s k i

theorem isSome_index_ofList (hs : s ∈ symbols) : ((ofList symbols).byLocation[s.key]?).isSome := by
  have hindex := (ofList_indexes symbols).index s.key
  cases h : (ofList symbols).byLocation[s.key]? with
  | some i => rfl
  | none =>
    rw [h, Option.map_none, eq_comm, Option.map_eq_none_iff, lastAt, List.find?_eq_none] at hindex
    exact absurd (by simp) (hindex s (List.mem_reverse.mpr hs))

theorem get?_add (r : SymbolRegistry) (s : Symbol) (signature : String) : (r.add s).get? signature =
    if signature = s.signature then some ((r.get? s.signature).elim s fun entry => entry.merge s)
    else r.get? signature := by
  have hadd : (r.add s).get? signature = (mergeInto r.merged s).get? signature := rfl
  rw [hadd, mergeInto_eq, OrderedMap.get?_alter, if_congr Std.LawfulEqCmp.compare_eq_iff_eq rfl rfl]
  rfl

theorem SignaturesFit.empty : SignaturesFit {} := by
  intro signature entry h
  cases h

/-- Merging keeps the signature. -/
theorem SignaturesFit.add (h : SignaturesFit r) (s : Symbol) : SignaturesFit (r.add s) := by
  intro signature entry hentry
  rw [get?_add] at hentry
  split at hentry
  · rename_i hsignature
    subst hsignature
    cases hpresent : r.get? s.signature with
    | none =>
      rw [hpresent] at hentry
      cases hentry
      rfl
    | some present =>
      rw [hpresent] at hentry
      cases hentry
      exact (Symbol.names_merge present s).2.2.trans (h _ _ hpresent)
  · exact h _ _ hentry

theorem signaturesFit_ofList (symbols : List Symbol) : SignaturesFit (ofList symbols) := by
  induction symbols using List.reverseRecOn with
  | nil => exact .empty
  | append_singleton symbols s ih =>
    rw [ofList_concat]
    exact ih.add s

/-- The entry of a signature gathers the occurrences that have it. -/
theorem gathers_of_get?_ofList (h : ∀ s ∈ symbols, s.IsNew) {signature : String} {entry : Symbol}
    (hentry : (ofList symbols).get? signature = some entry) : entry.signature = signature ∧
      entry.Gathers (symbols.filter fun s => s.signature == signature) := by
  refine ⟨signaturesFit_ofList symbols signature entry hentry, ?_⟩
  have hsignature : ∀ s ∈ symbols.filter fun s => s.signature == signature,
      s.signature = signature := by
    intro s hs
    exact beq_iff_eq.mp (List.mem_filter.mp hs).2
  rw [get?_ofList] at hentry
  apply (Symbol.merging_of_mergeAll hentry).gathers
  apply Symbol.alike_of_regular
  · intro s hs
    exact (h s (List.mem_of_mem_filter hs)).regular
  · intro s hs t ht
    exact (hsignature s hs).trans (hsignature t ht).symm

/-- Where signatures fit, an addition merges occurrences of one signature only. -/
theorem addAlike?_eq_some (h : SignaturesFit r) (s : Symbol) : r.addAlike? s = some (r.add s) := by
  have hmerged : (r.add s).merged =
      r.merged.insert s.signature ((r.get? s.signature).elim s fun entry => entry.merge s) := by
    have hadd : (r.add s).merged = mergeInto r.merged s := rfl
    rw [hadd, mergeInto_eq, OrderedMap.alter_eq_insert]
    rfl
  cases hpresent : r.get? s.signature with
  | none =>
    have hnew : r.addAlike? s = some { r.add s with merged := r.merged.insert s.signature s } := by
      rw [addAlike?, hpresent]
      rfl
    rw [hpresent] at hmerged
    rw [hnew]
    exact congrArg (fun merged => some { r.add s with merged }) hmerged.symm
  | some present =>
    have hsignature : present.signature = s.signature := h _ _ hpresent
    have hold : r.addAlike? s =
        some { r.add s with merged := r.merged.insert s.signature (present.merge s) } := by
      rw [addAlike?, hpresent]
      simp only [Symbol.mergeAlike?, if_pos hsignature]
      rfl
    rw [hpresent] at hmerged
    rw [hold]
    exact congrArg (fun merged => some { r.add s with merged }) hmerged.symm

/-- So no sequence of additions merges occurrences of different signatures. -/
theorem foldlM_addAlike? (symbols : List Symbol) :
    symbols.foldlM addAlike? {} = some (ofList symbols) := by
  induction symbols using List.reverseRecOn with
  | nil => rfl
  | append_singleton symbols s ih =>
    have hadd := addAlike?_eq_some (signaturesFit_ofList symbols) s
    rw [List.foldlM_append, ih, ofList_concat, Option.bind_eq_bind, Option.bind_some,
      List.foldlM_cons, hadd]
    rfl

/-- After any additions of new symbols the index leads every name and location to the last
occurrence with them, the merged entries are those of the signatures that occur and gather their
occurrences, and none of the additions merged occurrences of different signatures. -/
theorem ofList_registers (symbols : List Symbol) (h : ∀ s ∈ symbols, s.IsNew) :
    Registers (ofList symbols) symbols ∧ symbols.foldlM addAlike? {} = some (ofList symbols) := by
  refine ⟨?_, foldlM_addAlike? symbols⟩
  constructor
  · exact occurrences_ofList symbols
  · exact index_ofList symbols
  · exact fun s hs => isSome_index_ofList hs
  · exact isSome_get?_ofList symbols
  · exact fun signature entry hentry => gathers_of_get?_ofList h hentry

/-- A predicate without arguments at the place of an earlier one with arguments, and a documented
one between them that stands above. -/
def repeated : List Symbol :=
  [Symbol.onLine 3 none, Symbol.onLine 1 (some "a pair"),
    Symbol.occurrence "p" [] (Symbol.onLine 3 none).location none]

/-- The index leads to the later one, which has an entry of its own. -/
theorem ofList_registers_of_repeated :
    (∀ s ∈ repeated, s.IsNew) ∧
      (ofList repeated).byLocation[(Symbol.onLine 3 none).key]? = some 2 ∧
      ∃ entry, (ofList repeated).get? "p/1" = some entry ∧ entry.occurrenceCount = 2 ∧
        entry.arguments.get? "(X)" = some 2 ∧ entry.documentation = some "a pair" := by
  have hnew : ∀ s ∈ repeated, s.IsNew := by
    intro s hs
    simp only [repeated, List.mem_cons, List.not_mem_nil, or_false] at hs
    rcases hs with rfl | rfl | rfl <;> exact ⟨_, _, _, _, rfl⟩
  obtain ⟨hregisters, -⟩ := ofList_registers repeated hnew
  have hindex : (ofList repeated).byLocation[(Symbol.onLine 3 none).key]? = some 2 := by
    refine (hregisters.index _ 2).mpr ⟨⟨_, rfl, by decide⟩, ?_⟩
    intro j s hj hs
    have hlength : j < 3 := (List.getElem?_eq_some_iff.mp hs).1
    omega
  have hsome : ((ofList repeated).get? "p/1").isSome :=
    (hregisters.signatures "p/1").mpr ⟨_, List.mem_cons_self, by decide⟩
  obtain ⟨entry, hentry⟩ := Option.isSome_iff_exists.mp hsome
  obtain ⟨-, hgathers⟩ := hregisters.entries "p/1" entry hentry
  have hown : repeated.filter (fun s => s.signature == "p/1") =
      [Symbol.onLine 3 none, Symbol.onLine 1 (some "a pair")] := by
    rfl
  rw [hown] at hgathers
  refine ⟨hnew, hindex, entry, hentry, hgathers.tallies.occurrenceCount, ?_, ?_⟩
  · rw [hgathers.tallies.arguments]
    decide
  · have hdocumented : entry.documentation.isSome :=
      hgathers.documented.mpr ⟨_, List.mem_cons_of_mem _ List.mem_cons_self, rfl⟩
    obtain ⟨text, htext⟩ := Option.isSome_iff_exists.mp hdocumented
    obtain ⟨s, hs, hs'⟩ := hgathers.documentation text htext
    rcases List.mem_pair.mp hs with rfl | rfl
    · cases hs'
    · exact htext.trans hs'.symm

end SymbolRegistry
end AspAtlas
