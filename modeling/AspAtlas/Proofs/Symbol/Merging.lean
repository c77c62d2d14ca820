import AspAtlas.Proofs.Ordered.Map
import AspAtlas.Proofs.Symbol.Signature
import Mathlib.Algebra.GroupWithZero.Nat
import Mathlib.Algebra.Order.BigOperators.Group.List
import Mathlib.Algebra.Order.Group.Nat
import Mathlib.Data.List.Pairwise
/-!
Merging the occurrences of one signature, two at a time and in any order. Counts, arguments and the
location come out the same in every order; the documentation does exactly when the first symbol has
one, or when no two symbols are documented differently.
-/
namespace AspAtlas.Symbol

/-- Some symbols merged into one, part by part. -/
inductive Merging : List Symbol → Symbol → Prop
  | single (s : Symbol) : Merging [s] s
  | merge {xs ys : List Symbol} {a b : Symbol} (ha : Merging xs a) (hb : Merging ys b) :
      Merging (xs ++ ys) (a.merge b)

/-- The signature is the one of the name and the arity. -/
def Regular (s : Symbol) : Prop := s.signature = signatureOf s.name s.arity

/-- A symbol as it is made for a name, arguments and a location, with documentation or without. -/
def IsNew (s : Symbol) : Prop :=
  ∃ name arguments location documentation, s = occurrence name arguments location documentation

/-- No other symbol is located before this one. -/
def IsFirst (symbols : List Symbol) (s : Symbol) : Prop :=
  s ∈ symbols ∧ ∀ t ∈ symbols, compare t.location s.location ≠ .lt

/-- How often some symbols have an argument list, if one of them has it at all. -/
def argumentCount (symbols : List Symbol) (arguments : String) : Option Nat :=
  if symbols.any fun s => (s.arguments.get? arguments).isSome then
    some (symbols.map fun s => (s.arguments.get? arguments).getD 0).sum
  else none

/-- A symbol has the names of some symbols, their counts taken together, and the location of the
first of them. -/
structure Tallies (symbols : List Symbol) (s : Symbol) : Prop where
  alike : ∀ t ∈ symbols, t.name = s.name ∧ t.arity = s.arity ∧ t.signature = s.signature
  occurrenceCount : s.occurrenceCount = (symbols.map (·.occurrenceCount)).sum
  arguments : ∀ k, s.arguments.get? k = argumentCount symbols k
  location : ∃ first, IsFirst symbols first ∧ s.location = first.location

/-- A symbol is documented like the first of some symbols that has documentation. -/
structure DocumentedFirst (symbols : List Symbol) (s : Symbol) : Prop where
  documented : ∀ t, IsFirst (symbols.filter (·.documentation.isSome)) t →
    s.documentation = t.documentation
  undocumented : (∀ t ∈ symbols, t.documentation = none) → s.documentation = none

/-- The first symbol is documented, or all documented ones are documented alike. -/
def Settled (symbols : List Symbol) : Prop :=
  (∃ first, IsFirst symbols first ∧ first.documentation.isSome) ∨
    ∀ s ∈ symbols, ∀ t ∈ symbols, s.documentation.isSome → t.documentation.isSome →
      s.documentation = t.documentation

/-- The counts of some symbols fit 64 bits, also when they are taken together. -/
structure CountsFit (symbols : List Symbol) : Prop where
  occurrenceCount : IsWord (symbols.map (·.occurrenceCount)).sum
  arguments : ∀ k n, argumentCount symbols k = some n → IsWord n

/-- No two symbols stand at one place. -/
abbrev Apart (symbols : List Symbol) : Prop :=
  symbols.Pairwise fun s t => compare s.location t.location ≠ .eq

variable {symbols xs ys : List Symbol} {s t a b : Symbol}

/-- Two counts of one argument list taken together. -/
def addCounts : Option Nat → Option Nat → Option Nat
  | none, n => n
  | some m, n => some (m + n.getD 0)

theorem get?_mergeArguments (m m' : OrderedMap String Nat) (k : String) :
    (mergeArguments m m').get? k = addCounts (m.get? k) (m'.get? k) := by
  have hcounts (es : List (String × Nat)) (v : Option Nat) :
      es.foldl (fun v e => some (v.getD 0 + e.2)) v =
        (es.map Prod.snd).foldl (fun v n => some (v.getD 0 + n)) v := by
    rw [List.foldl_map]
  rw [mergeArguments, OrderedMap.get?_foldl_alter Prod.fst fun e count => count.getD 0 + e.2,
    hcounts, OrderedMap.filter_key m'.ascending]
  change (m'.get? k).toList.foldl _ _ = _
  cases m.get? k <;> cases m'.get? k <;> simp [addCounts]

theorem argumentCount_singleton (s : Symbol) (k : String) :
    argumentCount [s] k = s.arguments.get? k := by
  cases h : s.arguments.get? k <;> simp [argumentCount, h]

theorem argumentCount_append (xs ys : List Symbol) (k : String) :
    argumentCount (xs ++ ys) k = addCounts (argumentCount xs k) (argumentCount ys k) := by
  have hzero (zs : List Symbol) (h : (zs.any fun s => (s.arguments.get? k).isSome) = false) :
      (zs.map fun s => (s.arguments.get? k).getD 0).sum = 0 := by
    rw [List.any_eq_false] at h
    refine List.sum_eq_zero fun n hn => ?_
    obtain ⟨s, hs, rfl⟩ := List.mem_map.mp hn
    have hnone : s.arguments.get? k = none := by simpa using h s hs
    simp [hnone]
  simp only [argumentCount, List.any_append, List.map_append, List.sum_append]
  cases hx : xs.any fun s => (s.arguments.get? k).isSome <;>
    cases hy : ys.any fun s => (s.arguments.get? k).isSome <;>
    simp [addCounts, hzero, hx, hy]

theorem argumentCount_perm (h : xs.Perm ys) (k : String) :
    argumentCount xs k = argumentCount ys k := by
  simp only [argumentCount, h.any_eq, (h.map _).sum_eq]

theorem IsFirst.perm (h : xs.Perm ys) (hs : IsFirst xs s) : IsFirst ys s :=
  ⟨h.mem_iff.mp hs.1, fun t ht => hs.2 t (h.mem_iff.mpr ht)⟩

theorem exists_isFirst (h : symbols ≠ []) : ∃ s, IsFirst symbols s := by
  induction symbols with
  | nil => exact absurd rfl h
  | cons s rest ih =>
    by_cases hrest : rest = []
    · subst hrest
      refine ⟨s, List.mem_singleton_self s, fun t ht => ?_⟩
      rw [List.mem_singleton.mp ht]
      simp
    · obtain ⟨first, hmem, hleast⟩ := ih hrest
      cases hc : compare s.location first.location with
      | lt =>
        refine ⟨s, List.mem_cons_self, fun t ht => ?_⟩
        rcases List.mem_cons.mp ht with rfl | ht
        · simp
        · exact fun hlt => hleast t ht (Std.TransCmp.lt_trans hlt hc)
      | _ =>
        refine ⟨first, List.mem_cons_of_mem s hmem, fun t ht => ?_⟩
        rcases List.mem_cons.mp ht with rfl | ht
        · simp [hc]
        · exact hleast t ht

/-- Where all places differ, only one symbol is first. -/
theorem IsFirst.unique (hapart : Apart symbols) (hs : IsFirst symbols s) (ht : IsFirst symbols t) :
    s = t := by
  by_contra hne
  have hdiffer : compare s.location t.location ≠ .eq := by
    have hsymm : Std.Symm fun s t : Symbol => compare s.location t.location ≠ .eq :=
      ⟨fun _ _ h he => h (Std.OrientedCmp.eq_symm he)⟩
    exact hapart.forall hs.1 ht.1 hne
  cases hc : compare s.location t.location with
  | lt => exact ht.2 s hs.1 hc
  | eq => exact hdiffer hc
  | gt => exact hs.2 t ht.1 (Std.OrientedCmp.gt_iff_lt.mp hc)

theorem location_merge (a b : Symbol) :
    (a.merge b).location =
      if compare b.location a.location = .lt then b.location else a.location := by
  simp only [merge]
  split <;> rfl

theorem documentation_merge (a b : Symbol) :
    (a.merge b).documentation =
      if compare b.location a.location = .lt then b.documentation <|> a.documentation
      else a.documentation <|> b.documentation := by
  simp only [merge]
  split <;> rfl

theorem arguments_merge (a b : Symbol) :
    (a.merge b).arguments = mergeArguments a.arguments b.arguments := by
  simp only [merge]
  split <;> rfl

theorem occurrenceCount_merge (a b : Symbol) :
    (a.merge b).occurrenceCount = a.occurrenceCount + b.occurrenceCount := by
  simp only [merge]
  split <;> rfl

theorem names_merge (a b : Symbol) :
    (a.merge b).name = a.name ∧ (a.merge b).arity = a.arity ∧
      (a.merge b).signature = a.signature := by
  simp only [merge]
  split <;> exact ⟨rfl, rfl, rfl⟩

/-- The first of two groups is the first of one of them, whichever is located before the other. -/
theorem isFirst_append (ha : IsFirst xs s) (hb : IsFirst ys t) :
    IsFirst (xs ++ ys) (if compare t.location s.location = .lt then t else s) := by
  split
  · rename_i hlt
    refine ⟨List.mem_append_right xs hb.1, fun u hu => ?_⟩
    rcases List.mem_append.mp hu with hu | hu
    · exact fun h => ha.2 u hu (Std.TransCmp.lt_trans h hlt)
    · exact hb.2 u hu
  · rename_i hge
    refine ⟨List.mem_append_left ys ha.1, fun u hu => ?_⟩
    rcases List.mem_append.mp hu with hu | hu
    · exact ha.2 u hu
    · intro h
      refine hb.2 u hu (Std.TransCmp.lt_of_lt_of_isLE h ?_)
      cases hc : compare s.location t.location with
      | gt => exact absurd (Std.OrientedCmp.gt_iff_lt.mp hc) hge
      | _ => rfl

/-- Some symbols have one name and arity throughout. -/
abbrev Kindred (symbols : List Symbol) : Prop :=
  ∀ s ∈ symbols, ∀ t ∈ symbols, s.name = t.name ∧ s.arity = t.arity ∧ s.signature = t.signature

theorem Tallies.merge (hkindred : Kindred (xs ++ ys)) (ha : Tallies xs a) (hb : Tallies ys b) :
    Tallies (xs ++ ys) (a.merge b) := by
  obtain ⟨x, hx, hxlocation⟩ := ha.location
  obtain ⟨y, hy, hylocation⟩ := hb.location
  constructor
  · intro t ht
    obtain ⟨hname, harity, hsignature⟩ := ha.alike x hx.1
    obtain ⟨hname', harity', hsignature'⟩ := hkindred t ht x (List.mem_append_left ys hx.1)
    obtain ⟨hn, hr, hs⟩ := names_merge a b
    exact ⟨by rw [hn, hname', hname], by rw [hr, harity', harity],
      by rw [hs, hsignature', hsignature]⟩
  · rw [occurrenceCount_merge, ha.occurrenceCount, hb.occurrenceCount, List.map_append,
      List.sum_append]
  · intro k
    rw [arguments_merge, get?_mergeArguments, ha.arguments, hb.arguments, argumentCount_append]
  · refine ⟨_, isFirst_append hx hy, ?_⟩
    rw [location_merge, hxlocation, hylocation]
    split <;> rfl

/-- Names, counts, arguments and location of a merge do not depend on its order. -/
theorem Merging.tallies (h : Merging symbols s) (hkindred : Kindred symbols) :
    Tallies symbols s := by
  induction h with
  | single s =>
    constructor
    · intro t ht
      rw [List.mem_singleton.mp ht]
      exact ⟨rfl, rfl, rfl⟩
    · simp
    · intro k
      rw [argumentCount_singleton]
    · refine ⟨s, ⟨List.mem_singleton_self s, fun t ht => ?_⟩, rfl⟩
      rw [List.mem_singleton.mp ht]
      simp
  | @merge xs ys a b _ _ iha ihb =>
    refine Tallies.merge hkindred (iha ?_) (ihb ?_)
    · exact fun s hs t ht => hkindred s (List.mem_append_left ys hs) t (List.mem_append_left ys ht)
    · exact fun s hs t ht => hkindred s (List.mem_append_right xs hs) t
        (List.mem_append_right xs ht)

/-- The documentation of a merge is that of one of its symbols, if any has one. -/
theorem Merging.documentation_mem (h : Merging symbols s) :
    (s.documentation = none ∧ ∀ t ∈ symbols, t.documentation = none) ∨
      ∃ t ∈ symbols, t.documentation.isSome ∧ s.documentation = t.documentation := by
  induction h with
  | single s =>
    cases hs : s.documentation with
    | none => simp [hs]
    | some text => exact .inr ⟨s, List.mem_singleton_self s, by simp [hs], hs.symm⟩
  | @merge xs ys a b _ _ iha ihb =>
    rw [documentation_merge]
    rcases iha with ⟨ha, hxs⟩ | ⟨t, ht, hsome, ha⟩
    · rcases ihb with ⟨hb, hys⟩ | ⟨u, hu, husome, hb⟩
      · refine .inl ⟨by simp [ha, hb], fun t ht => ?_⟩
        rcases List.mem_append.mp ht with ht | ht
        · exact hxs t ht
        · exact hys t ht
      · exact .inr ⟨u, List.mem_append_right xs hu, husome, by simp [ha, hb]⟩
    · obtain ⟨text, htext⟩ := Option.isSome_iff_exists.mp hsome
      rcases ihb with ⟨hb, hys⟩ | ⟨u, hu, husome, hb⟩
      · exact .inr ⟨t, List.mem_append_left ys ht, hsome, by simp [ha, hb]⟩
      · obtain ⟨text', htext'⟩ := Option.isSome_iff_exists.mp husome
        by_cases hlt : compare b.location a.location = .lt
        · exact .inr ⟨u, List.mem_append_right xs hu, husome, by simp [hlt, hb, htext']⟩
        · exact .inr ⟨t, List.mem_append_left ys ht, hsome, by simp [hlt, ha, htext]⟩

/-- When the first symbol is documented, a merge is documented like it. -/
theorem Merging.documentation_of_first (h : Merging symbols s) (hkindred : Kindred symbols)
    (hapart : Apart symbols) (ht : IsFirst symbols t) (hsome : t.documentation.isSome) :
    s.documentation = t.documentation := by
  induction h with
  | single s => rw [List.mem_singleton.mp ht.1]
  | @merge xs ys a b ha hb iha ihb =>
    obtain ⟨text, htext⟩ := Option.isSome_iff_exists.mp hsome
    have hxs : Kindred xs := fun s hs t ht =>
      hkindred s (List.mem_append_left ys hs) t (List.mem_append_left ys ht)
    have hys : Kindred ys := fun s hs t ht =>
      hkindred s (List.mem_append_right xs hs) t (List.mem_append_right xs ht)
    obtain ⟨hapartx, haparty, hcross⟩ := List.pairwise_append.mp hapart
    obtain ⟨x, hx, hxlocation⟩ := (ha.tallies hxs).location
    obtain ⟨y, hy, hylocation⟩ := (hb.tallies hys).location
    rw [documentation_merge, hxlocation, hylocation]
    rcases List.mem_append.mp ht.1 with htx | hty
    · have hfirst : IsFirst xs t := ⟨htx, fun u hu => ht.2 u (List.mem_append_left ys hu)⟩
      have he : x = t := hx.unique hapartx hfirst
      have hge : compare y.location x.location ≠ .lt := by
        rw [he]
        exact ht.2 y (List.mem_append_right xs hy.1)
      rw [if_neg hge, iha hxs hapartx hfirst, htext]
      rfl
    · have hfirst : IsFirst ys t := ⟨hty, fun u hu => ht.2 u (List.mem_append_right xs hu)⟩
      have he : y = t := hy.unique haparty hfirst
      have hlt : compare y.location x.location = .lt := by
        rw [he]
        cases hc : compare t.location x.location with
        | lt => rfl
        | eq => exact absurd (Std.OrientedCmp.eq_symm hc) (hcross x hx.1 t hty)
        | gt =>
          exact absurd (Std.OrientedCmp.gt_iff_lt.mp hc) (ht.2 x (List.mem_append_left ys hx.1))
      rw [if_pos hlt, ihb hys haparty hfirst, htext]
      rfl

/-- Settled documentation comes out as that of the first documented symbol, in every order. -/
theorem Merging.documentedFirst (h : Merging symbols s) (hkindred : Kindred symbols)
    (hapart : Apart symbols) (hsettled : Settled symbols) : DocumentedFirst symbols s := by
  constructor
  · intro t ht
    obtain ⟨htmem, htsome⟩ := List.mem_filter.mp ht.1
    rcases hsettled with ⟨first, hfirst, hsome⟩ | hagree
    · have hfiltered : IsFirst (symbols.filter (·.documentation.isSome)) first :=
        ⟨List.mem_filter.mpr ⟨hfirst.1, hsome⟩, fun u hu => hfirst.2 u (List.mem_filter.mp hu).1⟩
      have he : first = t := hfiltered.unique (hapart.filter _) ht
      rw [← he]
      exact h.documentation_of_first hkindred hapart hfirst hsome
    · rcases h.documentation_mem with ⟨-, hnone⟩ | ⟨u, hu, husome, hdocumentation⟩
      · simp [hnone t htmem] at htsome
      · rw [hdocumentation]
        exact hagree u hu t htmem husome htsome
  · intro hnone
    rcases h.documentation_mem with ⟨hs, -⟩ | ⟨u, hu, husome, -⟩
    · exact hs
    · simp [hnone u hu] at husome

/-- A merge is determined by its symbols once its documentation is settled. -/
theorem eq_of_tallies (hne : symbols ≠ []) (hapart : Apart symbols) (hs : Tallies symbols s)
    (ht : Tallies symbols t) (hdocumentation : s.documentation = t.documentation) : s = t := by
  obtain ⟨x, hx⟩ := List.exists_mem_of_ne_nil symbols hne
  obtain ⟨hname, harity, hsignature⟩ := hs.alike x hx
  obtain ⟨hname', harity', hsignature'⟩ := ht.alike x hx
  have harguments : s.arguments = t.arguments :=
    OrderedMap.ext_get? fun k => (hs.arguments k).trans (ht.arguments k).symm
  have hcount := hs.occurrenceCount.trans ht.occurrenceCount.symm
  obtain ⟨first, hfirst, hlocation⟩ := hs.location
  obtain ⟨first', hfirst', hlocation'⟩ := ht.location
  have he : first = first' := hfirst.unique hapart hfirst'
  cases s
  cases t
  simp_all

theorem Tallies.perm (h : xs.Perm ys) (hs : Tallies xs s) : Tallies ys s where
  alike t ht := hs.alike t (h.mem_iff.mpr ht)
  occurrenceCount := by rw [hs.occurrenceCount, (h.map _).sum_eq]
  arguments k := by rw [hs.arguments, argumentCount_perm h]
  location := by
    obtain ⟨first, hfirst, hlocation⟩ := hs.location
    exact ⟨first, hfirst.perm h, hlocation⟩

theorem DocumentedFirst.perm (h : xs.Perm ys) (hs : DocumentedFirst xs s) :
    DocumentedFirst ys s where
  documented t ht := hs.documented t (ht.perm (h.filter _).symm)
  undocumented hnone := hs.undocumented fun t ht => hnone t (h.mem_iff.mp ht)

theorem DocumentedFirst.unique (hs : DocumentedFirst symbols s) (ht : DocumentedFirst symbols t) :
    s.documentation = t.documentation := by
  by_cases hnone : ∀ u ∈ symbols, u.documentation = none
  · rw [hs.undocumented hnone, ht.undocumented hnone]
  · push Not at hnone
    obtain ⟨u, hu, husome⟩ := hnone
    have hmem : u ∈ symbols.filter (·.documentation.isSome) :=
      List.mem_filter.mpr ⟨hu, Option.isSome_iff_ne_none.mpr husome⟩
    obtain ⟨first, hfirst⟩ := exists_isFirst (List.ne_nil_of_mem hmem)
    rw [hs.documented first hfirst, ht.documented first hfirst]

theorem Settled.perm (h : xs.Perm ys) (hs : Settled xs) : Settled ys := by
  rcases hs with ⟨first, hfirst, hsome⟩ | hagree
  · exact .inl ⟨first, hfirst.perm h, hsome⟩
  · exact .inr fun s hs t ht => hagree s (h.mem_iff.mpr hs) t (h.mem_iff.mpr ht)

/-- Merging one symbol after the other is one of the orders. -/
theorem Merging.foldl (h : Merging xs a) (rest : List Symbol) :
    Merging (xs ++ rest) (rest.foldl Symbol.merge a) := by
  induction rest generalizing xs a with
  | nil => simpa using h
  | cons t rest ih =>
    have hrest := ih (h.merge (.single t))
    simpa using hrest

/-- Later symbols do not replace a documentation that is there. -/
theorem documentation_foldl {rest : List Symbol} (hsome : a.documentation.isSome)
    (hlater : ∀ t ∈ rest, compare t.location a.location ≠ .lt) :
    (rest.foldl merge a).documentation = a.documentation := by
  induction rest generalizing a with
  | nil => rfl
  | cons t rest ih =>
    obtain ⟨text, htext⟩ := Option.isSome_iff_exists.mp hsome
    have ht := hlater t List.mem_cons_self
    have hlocation : (a.merge t).location = a.location := by rw [location_merge, if_neg ht]
    have hdocumentation : (a.merge t).documentation = a.documentation := by
      rw [documentation_merge, if_neg ht, htext]
      rfl
    rw [List.foldl_cons, ih, hdocumentation]
    · rw [hdocumentation]
      exact hsome
    · intro u hu
      rw [hlocation]
      exact hlater u (List.mem_cons_of_mem t hu)

/-- Where the first symbol is not documented, the merge may be documented like any other one: the
one that is merged into the first before the rest. -/
theorem exists_merging_documented (hfirst : IsFirst symbols s) (hnone : s.documentation = none)
    (ht : t ∈ symbols) (hsome : t.documentation.isSome) :
    ∃ order whole, order.Perm symbols ∧ Merging order whole ∧
      whole.documentation = t.documentation := by
  obtain ⟨before, behind, hsplit⟩ := List.append_of_mem hfirst.1
  have hperm : symbols.Perm (s :: (before ++ behind)) := by
    rw [hsplit]
    exact List.perm_middle
  have hne : t ≠ s := by
    rintro rfl
    simp [hnone] at hsome
  have htmem : t ∈ before ++ behind := (List.mem_cons.mp (hperm.mem_iff.mp ht)).resolve_left hne
  obtain ⟨before', behind', hsplit'⟩ := List.append_of_mem htmem
  have hrest : (before ++ behind).Perm (t :: (before' ++ behind')) := by
    rw [hsplit']
    exact List.perm_middle
  have horder : (s :: t :: (before' ++ behind')).Perm symbols := (hperm.trans (hrest.cons s)).symm
  have hlater := hfirst.2 t ht
  have hdocumentation : (s.merge t).documentation = t.documentation := by
    rw [documentation_merge, if_neg hlater, hnone]
    rfl
  refine ⟨_, _, horder, ((Merging.single s).merge (.single t)).foldl (before' ++ behind'), ?_⟩
  rw [documentation_foldl, hdocumentation]
  · rw [hdocumentation]
    exact hsome
  · intro u hu
    rw [location_merge, if_neg hlater]
    exact hfirst.2 u (horder.mem_iff.mp (List.mem_cons_of_mem s (List.mem_cons_of_mem t hu)))

theorem alike_of_regular (hregular : ∀ s ∈ symbols, s.Regular)
    (hsignature : ∀ s ∈ symbols, ∀ t ∈ symbols, s.signature = t.signature) : Kindred symbols := by
  intro s hs t ht
  have hsame := hsignature s hs t ht
  have hnames := hsame
  rw [hregular s hs, hregular t ht] at hnames
  obtain ⟨hname, harity⟩ := signatureOf_inj hnames
  exact ⟨hname, harity, hsame⟩

/-- Fewer symbols do not have an argument list more often. -/
theorem argumentCount_le_of_subperm (h : xs.Subperm ys) {k : String} {n : Nat}
    (hn : argumentCount xs k = some n) : ∃ m, argumentCount ys k = some m ∧ n ≤ m := by
  obtain ⟨zs, hperm, hsublist⟩ := h
  rw [← argumentCount_perm hperm, argumentCount, Option.ite_none_right_eq_some,
    Option.some.injEq] at hn
  obtain ⟨hany, rfl⟩ := hn
  obtain ⟨s, hs, hsome⟩ := List.any_eq_true.mp hany
  have hmore : (ys.any fun s => (s.arguments.get? k).isSome) = true :=
    List.any_eq_true.mpr ⟨s, hsublist.mem hs, hsome⟩
  exact ⟨_, if_pos hmore, (hsublist.map _).sum_le_sum fun _ _ => Nat.zero_le _⟩

theorem CountsFit.of_subperm (h : CountsFit ys) (hsub : xs.Subperm ys) : CountsFit xs := by
  constructor
  · obtain ⟨zs, hperm, hsublist⟩ := hsub
    rw [← (hperm.map _).sum_eq]
    have hle := (hsublist.map (·.occurrenceCount)).sum_le_sum fun _ _ => Nat.zero_le _
    exact Nat.lt_of_le_of_lt hle h.occurrenceCount
  · intro k n hn
    obtain ⟨m, hm, hle⟩ := argumentCount_le_of_subperm hsub hn
    exact Nat.lt_of_le_of_lt hle (h.arguments k m hm)

/-- If all counts that come out have 64 bits, so have all sums on the way. -/
theorem mergeArguments?_eq_some {m m' : OrderedMap String Nat}
    (h : ∀ k n, (mergeArguments m m').get? k = some n → IsWord n) :
    mergeArguments? m m' = some (mergeArguments m m') := by
  rw [mergeArguments] at h
  rw [mergeArguments?, mergeArguments]
  generalize m'.entries = es at h ⊢
  induction es using List.reverseRecOn with
  | nil => rfl
  | append_singleton es e ih =>
    rw [List.foldl_append, List.foldl_cons, List.foldl_nil] at h ⊢
    generalize es.foldl (fun m e => m.alter e.1 fun count => count.getD 0 + e.2) m =
      counted at h ih ⊢
    have hsum : IsWord ((counted.get? e.1).getD 0 + e.2) :=
      h e.1 _ (by rw [OrderedMap.get?_alter, if_pos (by simp)])
    have hbefore : ∀ k n, counted.get? k = some n → IsWord n := by
      intro k n hn
      by_cases hk : compare k e.1 = .eq
      · rw [Std.LawfulEqCmp.eq_of_compare hk] at hn
        rw [hn] at hsum
        exact Nat.lt_of_le_of_lt (Nat.le_add_right n e.2) hsum
      · exact h k n (by rw [OrderedMap.get?_alter, if_neg hk, hn])
    rw [List.foldlM_append, ih hbefore, OrderedMap.alter_eq_insert]
    simp [addWords?_of_isWord hsum]

/-- A merge of two groups of symbols has no sum that is too large, if their counts fit together. -/
theorem merge?_eq_some (hkindred : Kindred (xs ++ ys)) (hfit : CountsFit (xs ++ ys))
    (ha : Merging xs a) (hb : Merging ys b) : a.merge? b = some (a.merge b) := by
  have htallies := (ha.merge hb).tallies hkindred
  have harguments : mergeArguments? a.arguments b.arguments = some (a.merge b).arguments := by
    rw [arguments_merge]
    apply mergeArguments?_eq_some
    intro k n hn
    rw [← arguments_merge, htallies.arguments] at hn
    exact hfit.arguments k n hn
  have hcount : addWords? a.occurrenceCount b.occurrenceCount =
      some (a.merge b).occurrenceCount := by
    have hword := hfit.occurrenceCount
    rw [← htallies.occurrenceCount, occurrenceCount_merge] at hword
    rw [occurrenceCount_merge]
    exact addWords?_of_isWord hword
  rw [merge?, harguments, hcount]
  rfl

/-- Symbols of one signature at different places, with counts that fit 64 bits together, can be
merged in any order: no sum on the way is too large, and counts, arguments and location are always
the same. The whole is the same, and documented like the first documented symbol, exactly when the
documentation is settled. -/
theorem merging_independent_iff_settled (hne : symbols ≠ []) (hregular : ∀ s ∈ symbols, s.Regular)
    (hsignature : ∀ s ∈ symbols, ∀ t ∈ symbols, s.signature = t.signature)
    (hapart : Apart symbols) (hfit : CountsFit symbols) :
    (∀ xs ys a b, (xs ++ ys).Subperm symbols → Merging xs a → Merging ys b →
        a.merge? b = some (a.merge b)) ∧
      (∀ order whole, order.Perm symbols → Merging order whole → Tallies symbols whole) ∧
      ((∃ whole, Tallies symbols whole ∧ DocumentedFirst symbols whole ∧
          ∀ order s, order.Perm symbols → Merging order s → s = whole) ↔ Settled symbols) := by
  have hkindred := alike_of_regular hregular hsignature
  have htallies : ∀ order whole, order.Perm symbols → Merging order whole →
      Tallies symbols whole := by
    intro order whole hperm hmerging
    refine Tallies.perm hperm (hmerging.tallies fun s hs t ht => ?_)
    exact hkindred s (hperm.mem_iff.mp hs) t (hperm.mem_iff.mp ht)
  refine ⟨?_, htallies, ?_, ?_⟩
  · intro xs ys a b hsub ha hb
    have hpart : Kindred (xs ++ ys) := fun s hs t ht =>
      hkindred s (hsub.subset hs) t (hsub.subset ht)
    exact merge?_eq_some hpart (hfit.of_subperm hsub) ha hb
  · rintro ⟨whole, -, -, hwhole⟩
    obtain ⟨first, hfirst⟩ := exists_isFirst hne
    cases hnone : first.documentation with
    | some text => exact .inl ⟨first, hfirst, by simp [hnone]⟩
    | none =>
      right
      have hlike {s : Symbol} (hs : s ∈ symbols) (hsome : s.documentation.isSome) :
          whole.documentation = s.documentation := by
        obtain ⟨order, t, hperm, hmerging, ht⟩ := exists_merging_documented hfirst hnone hs hsome
        rw [← hwhole order t hperm hmerging, ht]
      intro s hs t ht hsome htsome
      rw [← hlike hs hsome, hlike ht htsome]
  · intro hsettled
    obtain ⟨first, rest, hsplit⟩ := List.exists_cons_of_ne_nil hne
    have hmerging : Merging symbols (rest.foldl Symbol.merge first) := by
      rw [hsplit]
      exact (Merging.single first).foldl rest
    have hdocumented := hmerging.documentedFirst hkindred hapart hsettled
    refine ⟨_, htallies symbols _ (.refl symbols) hmerging, hdocumented, ?_⟩
    intro order s hperm hs
    have hkindred' : Kindred order := fun s hs t ht =>
      hkindred s (hperm.mem_iff.mp hs) t (hperm.mem_iff.mp ht)
    have hdocumented' : DocumentedFirst symbols s :=
      (hs.documentedFirst hkindred'
        (hapart.perm hperm.symm fun h he => h (Std.OrientedCmp.eq_symm he))
        (hsettled.perm hperm.symm)).perm hperm
    exact eq_of_tallies hne hapart (htallies order s hperm hs)
      (htallies symbols _ (.refl symbols) hmerging) (hdocumented'.unique hdocumented)

theorem IsNew.count_le_one (h : IsNew s) (k : String) : (s.arguments.get? k).getD 0 ≤ 1 := by
  obtain ⟨name, arguments, location, documentation, rfl⟩ := h
  have hget : (occurrence name arguments location documentation).arguments.get? k =
      if compare k (argumentList arguments) = .eq then some 1 else none := rfl
  rw [hget]
  split <;> simp

/-- New symbols have counts of one, which fit 64 bits together if there are not too many of them. -/
theorem countsFit_of_new (h : ∀ s ∈ symbols, IsNew s) (hlength : IsWord symbols.length) :
    CountsFit symbols := by
  have hsum (count : Symbol → Nat) (hle : ∀ s, IsNew s → count s ≤ 1) :
      IsWord (symbols.map count).sum := by
    have hall : ∀ n ∈ symbols.map count, n ≤ 1 := by
      intro n hn
      obtain ⟨s, hs, rfl⟩ := List.mem_map.mp hn
      exact hle s (h s hs)
    have hbound := List.sum_le_card_nsmul _ 1 hall
    rw [List.length_map, Nat.nsmul_eq_mul, Nat.mul_one] at hbound
    exact Nat.lt_of_le_of_lt hbound hlength
  constructor
  · apply hsum
    rintro s ⟨name, arguments, location, documentation, rfl⟩
    exact Nat.le_refl 1
  · intro k n hn
    rw [argumentCount, Option.ite_none_right_eq_some, Option.some.injEq] at hn
    obtain ⟨-, rfl⟩ := hn
    exact hsum _ fun s hs => hs.count_le_one k

/-- A symbol `p(X)` on a line of a file. -/
def onLine (line : Nat) (documentation : Option String) : Symbol :=
  occurrence "p" ["X"] ⟨⟨"p.lp"⟩, ⟨line, 1⟩, ⟨line, 5⟩⟩ documentation

/-- Of two documented symbols and a first one without documentation, the whole is documented like
the one that is merged first. -/
theorem documentation_depends_on_order :
    Apart [onLine 1 none, onLine 2 (some "second"), onLine 3 (some "third")] ∧
      (∀ s ∈ [onLine 1 none, onLine 2 (some "second"), onLine 3 (some "third")],
        s.signature = "p/1") ∧
      (((onLine 1 none).merge (onLine 2 (some "second"))).merge
        (onLine 3 (some "third"))).documentation = some "second" ∧
      (((onLine 1 none).merge (onLine 3 (some "third"))).merge
        (onLine 2 (some "second"))).documentation = some "third" := by
  decide

/-- A documented symbol in front of others settles the documentation. -/
theorem merging_independent_of_documented_first :
    CountsFit [onLine 1 (some "first"), onLine 2 (some "second"), onLine 3 none] ∧
      Settled [onLine 1 (some "first"), onLine 2 (some "second"), onLine 3 none] ∧
      ∃ whole, DocumentedFirst [onLine 1 (some "first"), onLine 2 (some "second"), onLine 3 none]
          whole ∧
        ∀ order s,
          order.Perm [onLine 1 (some "first"), onLine 2 (some "second"), onLine 3 none] →
            Merging order s → s = whole := by
  have hsettled : Settled [onLine 1 (some "first"), onLine 2 (some "second"), onLine 3 none] :=
    .inl ⟨onLine 1 (some "first"), ⟨List.mem_cons_self, by decide⟩, rfl⟩
  have hregular : ∀ s ∈ [onLine 1 (some "first"), onLine 2 (some "second"), onLine 3 none],
      s.Regular := by
    simp [onLine, Regular, occurrence]
  have hnew : ∀ s ∈ [onLine 1 (some "first"), onLine 2 (some "second"), onLine 3 none],
      IsNew s := by
    simp only [List.forall_mem_cons]
    exact ⟨⟨_, _, _, _, rfl⟩, ⟨_, _, _, _, rfl⟩, ⟨_, _, _, _, rfl⟩, List.forall_mem_nil _⟩
  have hfit := countsFit_of_new hnew (by decide)
  obtain ⟨-, -, hwhole⟩ := merging_independent_iff_settled (List.cons_ne_nil _ _) hregular
    (by decide) (by decide) hfit
  obtain ⟨whole, -, hdocumented, hall⟩ := hwhole.mpr hsettled
  exact ⟨hfit, hsettled, whole, hdocumented, hall⟩

end AspAtlas.Symbol
