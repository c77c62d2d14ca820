import AspAtlas.Proofs.Statement.Likeness
import AspAtlas.Proofs.Symbol.Merging
/-!
The merged entries of a registry. The entry of a signature is the merge of the occurrences
that have it; for occurrences found in a file it says how many there are, with which
arguments, where the first one stands, and what the directive on their name says. None of this
depends on the order of the statements.
-/
namespace AspAtlas

/-- In the order of locations only the spelling of the file may differ. -/
theorem Location.compare_eq_iff {l m : Location} : compare l m = .eq ↔ (l == m) = true := by
  have hlex : compare l m =
      (compare l.file m.file).then ((compare l.begin m.begin).then (compare l.stop m.stop)) := rfl
  rw [hlex, Ordering.then_eq_eq, Ordering.then_eq_eq, Path.compare_eq_iff, Position.compare_eq_iff,
    Position.compare_eq_iff, Location.beq_iff, Path.beq_iff]

namespace Symbol

/-- Some symbols merged one after the other. -/
def mergeAll : List Symbol → Option Symbol
  | [] => none
  | s :: rest => some (rest.foldl merge s)

/-- Symbols are equal as data when they differ in nothing but the spelling of the file. -/
theorem beq_of_fields {s t : Symbol} (hname : s.name = t.name) (harity : s.arity = t.arity)
    (hsignature : s.signature = t.signature) (harguments : s.arguments = t.arguments)
    (hlocation : (s.location == t.location) = true)
    (hdocumentation : s.documentation = t.documentation)
    (hcount : s.occurrenceCount = t.occurrenceCount) : (s == t) = true := by
  have hself : (t.arguments == t.arguments) = true := by
    change (t.arguments.entries == t.arguments.entries) = true
    simp
  change instBEqSymbol.beq _ _ = true
  simp [instBEqSymbol.beq, hname, harity, hsignature, harguments, hlocation, hdocumentation,
    hcount, hself]

/-- An occurrence has one argument list, this one. -/
def HasArguments (s : Symbol) (arguments : String) : Prop := s.arguments.keys = [arguments]

instance (s : Symbol) (arguments : String) : Decidable (s.HasArguments arguments) :=
  inferInstanceAs (Decidable (s.arguments.keys = [arguments]))

/-- An entry says what some occurrences of one signature say together, and the description that
directives give for their name. -/
structure Totals (description? : String → Option String) (symbols : List Symbol) (entry : Symbol) :
    Prop where
  signature : entry.signature = signatureOf entry.name entry.arity
  alike : ∀ s ∈ symbols, s.name = entry.name ∧ s.arity = entry.arity
  occurrenceCount : entry.occurrenceCount = symbols.length
  arguments : ∀ k, entry.arguments.get? k =
    if ∃ s ∈ symbols, s.HasArguments k then some
      (symbols.countP fun s => s.HasArguments k) else none
  location : (∃ s ∈ symbols, entry.location = s.location) ∧
    ∀ s ∈ symbols, compare s.location entry.location ≠ .lt
  documentation : entry.documentation = description? entry.name

variable {symbols xs ys : List Symbol} {s entry entry' : Symbol}
    {description? : String → Option String}

theorem mergeAll_concat (symbols : List Symbol) (s : Symbol) :
    mergeAll (symbols ++ [s]) = some ((mergeAll symbols).elim s fun entry => entry.merge s) := by
  cases symbols with
  | nil => rfl
  | cons first rest => simp [mergeAll]

theorem foldl_eq_mergeAll (symbols : List Symbol) :
    symbols.foldl (fun present s => some (present.elim s fun entry => entry.merge s)) none =
      mergeAll symbols := by
  induction symbols using List.reverseRecOn with
  | nil => rfl
  | append_singleton symbols s ih =>
    rw [List.foldl_append, ih, mergeAll_concat]
    rfl

theorem merging_of_mergeAll (h : mergeAll symbols = some entry) : Merging symbols entry := by
  cases symbols with
  | nil => cases h
  | cons s rest =>
    cases h
    exact (Merging.single s).foldl rest

/-- A symbol is an occurrence that is documented as its name is described. -/
def IsOccurrence (description? : String → Option String) (s : Symbol) : Prop :=
  ∃ name arguments location, s = occurrence name arguments location (description? name)

theorem IsOccurrence.regular (h : IsOccurrence description? s) : s.Regular := by
  obtain ⟨name, arguments, location, rfl⟩ := h
  rfl

theorem IsOccurrence.get?_arguments (h : IsOccurrence description? s) (k : String) :
    s.arguments.get? k = if s.HasArguments k then some 1 else none := by
  obtain ⟨name, arguments, location, rfl⟩ := h
  have hhas : (occurrence name arguments location (description? name)).HasArguments k ↔
      k = argumentList arguments := by
    change [argumentList arguments] = [k] ↔ _
    rw [List.singleton_inj, eq_comm]
  have hget : (occurrence name arguments location (description? name)).arguments.get? k =
      if compare k (argumentList arguments) = .eq then some 1 else none := rfl
  rw [hget, if_congr hhas rfl rfl, if_congr Std.LawfulEqCmp.compare_eq_iff_eq rfl rfl]

/-- Occurrences taken together have each argument list as often as there are occurrences with it. -/
theorem argumentCount_of_occurrences (h : ∀ s ∈ symbols, IsOccurrence description? s) (k : String) :
    argumentCount symbols k =
      if ∃ s ∈ symbols, s.HasArguments k then some (symbols.countP fun s => s.HasArguments k)
        else none := by
  have hany : (symbols.any fun s => (s.arguments.get? k).isSome) = true ↔
      ∃ s ∈ symbols, s.HasArguments k := by
    rw [List.any_eq_true]
    refine exists_congr fun s => and_congr_right fun hs => ?_
    rw [(h s hs).get?_arguments]
    split <;> simp [*]
  have hsum : (symbols.map fun s => (s.arguments.get? k).getD 0).sum =
      symbols.countP fun s => s.HasArguments k := by
    clear hany
    induction symbols with
    | nil => rfl
    | cons s rest ih =>
      obtain ⟨hs, hrest⟩ := List.forall_mem_cons.mp h
      rw [List.map_cons, List.sum_cons, ih hrest, List.countP_cons, hs.get?_arguments, Nat.add_comm]
      split <;> simp [*]
  rw [argumentCount, if_congr hany rfl rfl, hsum]

theorem occurrenceCount_of_occurrences (h : ∀ s ∈ symbols, IsOccurrence description? s) :
    (symbols.map (·.occurrenceCount)).sum = symbols.length := by
  induction symbols with
  | nil => rfl
  | cons s rest ih =>
    obtain ⟨⟨name, arguments, location, rfl⟩, hrest⟩ := List.forall_mem_cons.mp h
    rw [List.map_cons, List.sum_cons, ih hrest, List.length_cons, Nat.add_comm]
    rfl

/-- Occurrences of one signature that are merged in any order give the totals of them all. -/
theorem Merging.totals (h : Merging symbols entry)
    (hoccurrences : ∀ s ∈ symbols, IsOccurrence description? s)
    (hsignature : ∀ s ∈ symbols, ∀ t ∈ symbols, s.signature = t.signature) :
    Totals description? symbols entry := by
  have hkindred : Kindred symbols :=
    alike_of_regular (fun s hs => (hoccurrences s hs).regular) hsignature
  have htallies := h.tallies hkindred
  obtain ⟨first, hfirst, hlocation⟩ := htallies.location
  obtain ⟨hname, harity, hsigned⟩ := htallies.alike first hfirst.1
  have hdescribed : ∀ s ∈ symbols, s.documentation = description? entry.name := by
    intro s hs
    rw [← (htallies.alike s hs).1]
    obtain ⟨name, arguments, location, rfl⟩ := hoccurrences s hs
    rfl
  constructor
  · rw [← hname, ← harity, ← hsigned]
    exact (hoccurrences first hfirst.1).regular
  · intro s hs
    exact ⟨(htallies.alike s hs).1, (htallies.alike s hs).2.1⟩
  · rw [htallies.occurrenceCount, occurrenceCount_of_occurrences hoccurrences]
  · intro k
    rw [htallies.arguments, argumentCount_of_occurrences hoccurrences]
  · refine ⟨⟨first, hfirst.1, hlocation⟩, fun s hs => ?_⟩
    rw [hlocation]
    exact hfirst.2 s hs
  · rcases h.documentation_mem with ⟨hnone, hall⟩ | ⟨s, hs, -, hsome⟩
    · rw [hnone, ← hdescribed first hfirst.1, hall first hfirst.1]
    · rw [hsome, hdescribed s hs]

/-- The totals of some occurrences do not depend on their order. -/
theorem Totals.beq (h : Totals description? xs entry) (h' : Totals description? ys entry')
    (hperm : xs.Perm ys) : (entry == entry') = true := by
  obtain ⟨⟨first, hfirst, hlocation⟩, hleast⟩ := h.location
  obtain ⟨⟨first', hfirst', hlocation'⟩, hleast'⟩ := h'.location
  obtain ⟨hname, harity⟩ := h.alike first hfirst
  obtain ⟨hname', harity'⟩ := h'.alike first (hperm.mem_iff.mp hfirst)
  have hnames : entry.name = entry'.name := hname.symm.trans hname'
  have harities : entry.arity = entry'.arity := harity.symm.trans harity'
  apply beq_of_fields hnames harities
  · rw [h.signature, h'.signature, hnames, harities]
  · refine OrderedMap.ext_get? fun k => ?_
    have hexists : (∃ s ∈ xs, s.HasArguments k) ↔ ∃ s ∈ ys, s.HasArguments k :=
      exists_congr fun s => and_congr_left' hperm.mem_iff
    rw [h.arguments, h'.arguments, if_congr hexists rfl rfl, hperm.countP_eq]
  · rw [← Location.compare_eq_iff]
    have hge : compare entry.location entry'.location ≠ .lt := by
      rw [hlocation]
      exact hleast' first (hperm.mem_iff.mp hfirst)
    have hle : compare entry'.location entry.location ≠ .lt := by
      rw [hlocation']
      exact hleast first' (hperm.mem_iff.mpr hfirst')
    cases hc : compare entry.location entry'.location with
    | eq => rfl
    | lt => exact absurd hc hge
    | gt => exact absurd (Std.OrientedCmp.gt_iff_lt.mp hc) hle
  · rw [h.documentation, h'.documentation, hnames]
  · rw [h.occurrenceCount, h'.occurrenceCount, hperm.length_eq]

end Symbol

/-- Where every present value grows by the same as a new one has, the whole does. -/
theorem OrderedMap.sum_alterEntries {κ ν : Type} [Ord κ] {measure : ν → Nat}
    {f : Option ν → ν} {n : Nat}
    (hnew : measure (f none) = n) (hpresent : ∀ v, measure (f (some v)) = measure v + n) (k : κ)
    (es : List (κ × ν)) :
    ((alterEntries k f es).map fun e => measure e.2).sum =
      (es.map fun e => measure e.2).sum + n := by
  induction es with
  | nil => simp [alterEntries, hnew]
  | cons e rest ih =>
    rw [alterEntries]
    split
    · rw [List.map_cons, List.sum_cons, hnew, Nat.add_comm]
    · rw [List.map_cons, List.sum_cons, List.map_cons, List.sum_cons, hpresent]
      omega
    · rw [List.map_cons, List.sum_cons, List.map_cons, List.sum_cons, ih, Nat.add_assoc]

/-- An atom of a predicate with constants as arguments. -/
def Node.mention (name : String) (arguments : List String) (location : Location) : Node :=
  let constants := arguments.map fun text => Node.mk .symbolicTerm location text none none .none []
  let function := (Node.mk .function location name none none .none []).withSequence
    .arguments constants
  (Node.mk .symbolicAtom location none none none .none []).withNode .symbol function

namespace SymbolRegistry

theorem mergeInto_eq (merged : OrderedMap String Symbol) (s : Symbol) : mergeInto merged s =
    merged.alter s.signature fun present => present.elim s fun entry => entry.merge s := by
  rw [mergeInto]
  congr
  funext present
  cases present <;> rfl

/-- The entry of a signature is the merge of the occurrences that have it, in their order. -/
theorem get?_ofList (symbols : List Symbol) (signature : String) :
    (ofList symbols).get? signature =
      Symbol.mergeAll (symbols.filter fun s => s.signature == signature) := by
  have hmerged : (ofList symbols).merged = symbols.foldl mergeInto .empty :=
    (List.foldl_hom merged fun _ _ => rfl).symm
  rw [get?, hmerged, funext₂ mergeInto_eq,
    OrderedMap.get?_foldl_alter Symbol.signature fun s present => present.elim s
      fun entry => entry.merge s,
    OrderedMap.get?_empty, Symbol.foldl_eq_mergeAll]

/-- The counts of all entries together are those of all occurrences. -/
theorem sum_occurrenceCount (symbols : List Symbol) :
    ((ofList symbols).symbols.map (·.occurrenceCount)).sum =
      (symbols.map (·.occurrenceCount)).sum := by
  induction symbols using List.reverseRecOn with
  | nil => rfl
  | append_singleton symbols s ih =>
    have hentries : (ofList (symbols ++ [s])).merged.entries =
        (mergeInto (ofList symbols).merged s).entries := by
      rw [ofList, List.foldl_append]
      rfl
    rw [SymbolRegistry.symbols, OrderedMap.values, List.map_map] at ih ⊢
    rw [hentries, List.map_append, List.sum_append, ← ih, List.map_singleton, List.sum_singleton]
    exact OrderedMap.sum_alterEntries rfl
      (fun present => Symbol.occurrenceCount_merge present s) _ _

/-- The occurrences that a registry finds are documented as their names are described. -/
theorem isOccurrence_of_mem_extract {nodes : List Node} {file : Path} {directives : DirectiveIndex}
    {directiveName : String} {s : Symbol}
    (h : s ∈ (extract nodes file directives directiveName).occurrences.toList) :
    s.IsOccurrence (directives.description? directiveName) := by
  rw [extract, occurrences_ofList] at h
  obtain ⟨atom, bare, hbare, rfl⟩ := exists_atom_of_mem_extracted h
  obtain ⟨name, arguments, location, rfl⟩ := Symbol.exists_occurrence_of_ofAtom? hbare
  exact ⟨name, arguments, location, rfl⟩

section Entries

variable {description? : String → Option String} {symbols symbols' : List Symbol} {entry : Symbol}

/-- There is an entry exactly for the signatures that occur. -/
theorem isSome_get?_ofList (symbols : List Symbol) (signature : String) :
    ((ofList symbols).get? signature).isSome ↔ ∃ s ∈ symbols, s.signature = signature := by
  rw [get?_ofList]
  cases hall : symbols.filter fun s => s.signature == signature with
  | nil =>
    rw [List.filter_eq_nil_iff] at hall
    simp only [Symbol.mergeAll, Option.isSome_none, Bool.false_eq_true, false_iff]
    rintro ⟨s, hs, hsignature⟩
    exact hall s hs (beq_iff_eq.mpr hsignature)
  | cons s rest =>
    have hs : s ∈ symbols.filter fun s => s.signature == signature := by
      rw [hall]
      exact List.mem_cons_self
    obtain ⟨hmem, hsignature⟩ := List.mem_filter.mp hs
    simp only [Symbol.mergeAll, Option.isSome_some, true_iff]
    exact ⟨s, hmem, beq_iff_eq.mp hsignature⟩

/-- The entry of a signature says what the occurrences that have it say together. -/
theorem totals_of_get?_ofList (h : ∀ s ∈ symbols, s.IsOccurrence description?) {signature : String}
    (hentry : (ofList symbols).get? signature = some entry) :
    entry.signature = signature ∧
      entry.Totals description? (symbols.filter fun s => s.signature == signature) := by
  rw [get?_ofList] at hentry
  have hmem : ∀ s ∈ symbols.filter fun s => s.signature == signature,
      s.IsOccurrence description? ∧ s.signature = signature := by
    intro s hs
    obtain ⟨hs, hsignature⟩ := List.mem_filter.mp hs
    exact ⟨h s hs, beq_iff_eq.mp hsignature⟩
  have htotals : entry.Totals description? (symbols.filter fun s => s.signature == signature) := by
    apply (Symbol.merging_of_mergeAll hentry).totals fun s hs => (hmem s hs).1
    intro s hs t ht
    rw [(hmem s hs).2, (hmem t ht).2]
  refine ⟨?_, htotals⟩
  obtain ⟨first, hfirst, -⟩ := htotals.location.1
  obtain ⟨hname, harity⟩ := htotals.alike first hfirst
  have hregular : first.signature = Symbol.signatureOf first.name first.arity :=
    (hmem first hfirst).1.regular
  rw [htotals.signature, ← hname, ← harity, ← hregular, (hmem first hfirst).2]

/-- Occurrences in another order make the same entries. -/
theorem merged_ofList_perm (h : ∀ s ∈ symbols, s.IsOccurrence description?)
    (hperm : symbols.Perm symbols') :
    ((ofList symbols).merged == (ofList symbols').merged) = true := by
  have h' : ∀ s ∈ symbols', s.IsOccurrence description? := fun s hs => h s (hperm.mem_iff.mpr hs)
  refine OrderedMap.beq_of_get? fun signature => ?_
  have hsome : ((ofList symbols).get? signature).isSome ↔
      ((ofList symbols').get? signature).isSome := by
    rw [isSome_get?_ofList, isSome_get?_ofList]
    exact exists_congr fun s => and_congr_left' hperm.mem_iff
  change Option.Rel _ ((ofList symbols).get? signature) ((ofList symbols').get? signature)
  cases hentry : (ofList symbols).get? signature with
  | none =>
    cases hentry' : (ofList symbols').get? signature with
    | none => exact .none
    | some entry' => simp [hentry, hentry'] at hsome
  | some entry =>
    cases hentry' : (ofList symbols').get? signature with
    | none => simp [hentry, hentry'] at hsome
    | some entry' =>
      have htotals := (totals_of_get?_ofList h hentry).2
      have htotals' := (totals_of_get?_ofList h' hentry').2
      exact .some (htotals.beq htotals' (hperm.filter _))

end Entries

/-- The occurrences of a file are those of the atoms at the ends of the routes in its statements. -/
theorem occurrences_extract (nodes : List Node) (file : Path) (directives : DirectiveIndex)
    (directiveName : String) :
    (extract nodes file directives directiveName).occurrences.toList =
      (nodes.filter fun n => n.location.isIn file).flatMap fun n =>
        (n.routesTo Node.isPredicate).filterMap fun x => (Symbol.ofAtom? x.2).map fun s =>
          { s with documentation := directives.description? directiveName s.name } := by
  rw [extract, occurrences_ofList]
  refine List.flatMap_congr fun n _ => ?_
  rw [occurrencesIn_eq_endsAt, Node.endsAt, List.filterMap_map, List.map_filterMap]
  rfl

/-- The occurrences in a registry are the atoms of predicates in the statements of its file that
stand in no other one, in pre-order, with the descriptions of their names. The registry has one
entry for every signature that occurs, which says what the occurrences that have it say together;
the order of the statements does not count. -/
theorem extract_totals (nodes : List Node) (file : Path) (directives : DirectiveIndex)
    (directiveName : String) :
    let registry := extract nodes file directives directiveName
    let occurrences := registry.occurrences.toList
    (∃ found : Node → List (Route × Node),
        (∀ n, Node.ListsRoutes Node.isPredicate n (found n)) ∧
          occurrences = (nodes.filter fun n => n.location.isIn file).flatMap fun n =>
            (found n).filterMap fun x => (Symbol.ofAtom? x.2).map fun s =>
              { s with documentation := directives.description? directiveName s.name }) ∧
      (∀ s ∈ occurrences, s.IsOccurrence (directives.description? directiveName)) ∧
      (∀ signature, (registry.get? signature).isSome ↔ ∃ s ∈ occurrences, s.signature = signature) ∧
      (∀ signature entry, registry.get? signature = some entry →
        entry.signature = signature ∧
          Symbol.Totals (directives.description? directiveName)
            (occurrences.filter fun s => s.signature == signature) entry) ∧
      (∀ nodes', nodes'.Perm nodes →
        ((extract nodes' file directives directiveName).merged == registry.merged) = true) ∧
      (registry.symbols.map (·.occurrenceCount)).sum = registry.occurrences.size := by
  intro registry occurrences
  have hoccurrences : ∀ s ∈ occurrences, s.IsOccurrence (directives.description? directiveName) :=
    fun s hs => isOccurrence_of_mem_extract hs
  have hregistry : registry = ofList occurrences := by
    change ofList _ = ofList (ofList _).occurrences.toList
    rw [occurrences_ofList]
  rw [hregistry]
  refine ⟨⟨Node.routesTo Node.isPredicate, Node.listsRoutes_routesTo Node.isPredicate, ?_⟩,
    hoccurrences, isSome_get?_ofList occurrences, ?_, ?_, ?_⟩
  · exact occurrences_extract nodes file directives directiveName
  · intro signature entry hentry
    exact totals_of_get?_ofList hoccurrences hentry
  · intro nodes' hperm
    rw [extract]
    have hfound : ((nodes'.filter fun n => n.location.isIn file).flatMap fun n =>
        (occurrencesIn n).map (document directives directiveName)).Perm occurrences := by
      change List.Perm _ (ofList _).occurrences.toList
      rw [occurrences_ofList]
      exact (hperm.filter _).flatMap_right _
    exact merged_ofList_perm (fun s hs => hoccurrences s (hfound.mem_iff.mp hs)) hfound
  · rw [sum_occurrenceCount, Symbol.occurrenceCount_of_occurrences hoccurrences,
      ← Array.length_toList, occurrences_ofList]

/-- Two atoms of one predicate make one entry, whichever of them comes first. -/
theorem extract_totals_of_two :
    let early := Node.mention "p" ["a"] ⟨⟨"p.lp"⟩, ⟨1, 1⟩, ⟨1, 5⟩⟩
    let late := Node.mention "p" ["b"] ⟨⟨"p.lp"⟩, ⟨2, 1⟩, ⟨2, 5⟩⟩
    let registry := extract [late, early] ⟨"p.lp"⟩ {} "predicate"
    (∃ entry, registry.get? "p/1" = some entry ∧ entry.occurrenceCount = 2 ∧
      entry.arguments.get? "(a)" = some 1 ∧ entry.location.begin = ⟨1, 1⟩) ∧
      ((extract [early, late] ⟨"p.lp"⟩ {} "predicate").merged == registry.merged) = true := by
  intro early late registry
  obtain ⟨-, -, hsome, hentry, hperm, -⟩ := extract_totals [late, early] ⟨"p.lp"⟩ {} "predicate"
  have hown : [late, early].filter (fun n => n.location.isIn ⟨"p.lp"⟩) = [late, early] :=
    List.filter_eq_self.mpr (List.all_eq_true.mp (by decide))
  have hfound : registry.occurrences.toList =
      [Symbol.occurrence "p" ["b"] ⟨⟨"p.lp"⟩, ⟨2, 1⟩, ⟨2, 5⟩⟩ none,
        Symbol.occurrence "p" ["a"] ⟨⟨"p.lp"⟩, ⟨1, 1⟩, ⟨1, 5⟩⟩ none] := by
    have hlist : registry.occurrences.toList = _ := occurrences_ofList _
    rw [hlist, hown]
    rfl
  refine ⟨?_, hperm [early, late] (.swap late early [])⟩
  rw [hfound] at hsome hentry
  have hp : (registry.get? "p/1").isSome :=
    (hsome "p/1").mpr ⟨_, List.mem_cons_self, by decide⟩
  obtain ⟨entry, hp⟩ := Option.isSome_iff_exists.mp hp
  have htotals := (hentry "p/1" entry hp).2
  refine ⟨entry, hp, ?_, ?_, ?_⟩
  · rw [htotals.occurrenceCount]
    decide
  · rw [htotals.arguments]
    decide
  · obtain ⟨⟨s, hs, hlocation⟩, hleast⟩ := htotals.location
    have hs := List.mem_of_mem_filter hs
    rcases List.mem_pair.mp hs with rfl | rfl
    · -- The later atom is not the one located first.
      refine absurd ?_ (hleast _
        (List.mem_filter.mpr ⟨List.mem_cons_of_mem _ List.mem_cons_self, ?_⟩))
      · rw [hlocation]
        decide
      · decide
    · rw [hlocation]
      rfl

end SymbolRegistry
end AspAtlas
