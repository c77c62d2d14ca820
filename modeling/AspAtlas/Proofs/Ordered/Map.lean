import AspAtlas.Ordered.Map
import Mathlib.Data.List.Forall2
/-!
Look-ups in ordered maps. What a changed map holds at a key, and that a map is determined by what it
holds.
-/
namespace AspAtlas.OrderedMap

variable {κ ν : Type} [Ord κ]

/-- Below the first key there is nothing to find. -/
theorem lookup_eq_none {k : κ} {es : List (κ × ν)} (h : ∀ e ∈ es, compare k e.1 = .lt) :
    lookup k es = none := by
  induction es with
  | nil => rfl
  | cons e rest ih =>
    have he : compare k e.1 ≠ .eq := by simp [h e List.mem_cons_self]
    rw [lookup, if_neg he]
    exact ih fun e' he' => h e' (List.mem_cons_of_mem e he')

theorem get?_empty (k : κ) : (empty : OrderedMap κ ν).get? k = none := rfl

variable [Std.TransOrd κ]

theorem lookup_head (e : κ × ν) (es : List (κ × ν)) : lookup e.1 (e :: es) = some e.2 := by
  rw [lookup, if_pos Std.ReflCmp.compare_self]

/-- A key below the first one is not in an ascending list. -/
theorem lookup_below {k : κ} {e : κ × ν} {es : List (κ × ν)} (he : ∀ x ∈ es, compare e.1 x.1 = .lt)
    (hk : compare k e.1 = .lt) : lookup k (e :: es) = none := by
  refine lookup_eq_none fun x hx => ?_
  rcases List.mem_cons.mp hx with rfl | hx
  · exact hk
  · exact Std.TransCmp.lt_trans hk (he x hx)

/-- Behind the first entry of an ascending list, everything but its key is found as before. -/
theorem lookup_tail {e : κ × ν} {es : List (κ × ν)} (he : ∀ x ∈ es, compare e.1 x.1 = .lt) (k : κ) :
    lookup k es = if compare k e.1 = .eq then none else lookup k (e :: es) := by
  by_cases hk : compare k e.1 = .eq
  · rw [if_pos hk]
    refine lookup_eq_none fun x hx => ?_
    rw [Std.TransCmp.congr_left hk]
    exact he x hx
  · rw [if_neg hk, lookup, if_neg hk]

theorem lookup_alterEntries {k k' : κ} {f : Option ν → ν} {es : List (κ × ν)}
    (h : es.Pairwise fun a b => compare a.1 b.1 = .lt) :
    lookup k' (alterEntries k f es) =
      if compare k' k = .eq then some (f (lookup k es)) else lookup k' es := by
  induction es with
  | nil => simp [alterEntries, lookup]
  | cons e rest ih =>
    obtain ⟨he, hrest⟩ := List.pairwise_cons.mp h
    simp only [alterEntries]
    cases hk : compare k e.1 with
    | lt =>
      rw [lookup, lookup_below he hk]
    | eq =>
      have hfound : lookup k (e :: rest) = some e.2 := by rw [lookup, if_pos hk]
      have hsame : compare k' e.1 = compare k' k := (Std.TransCmp.congr_right hk).symm
      rw [lookup, hfound, hsame, lookup, hsame]
      split <;> rfl
    | gt =>
      have hskip : lookup k (e :: rest) = lookup k rest := by simp [lookup, hk]
      rw [lookup, ih hrest, hskip, lookup]
      by_cases hk' : compare k' k = .eq
      · have hgt : compare k' e.1 = .gt := (Std.TransCmp.congr_left hk').trans hk
        simp [hk', hgt]
      · simp only [hk', if_false]

theorem get?_alter (m : OrderedMap κ ν) (k k' : κ) (f : Option ν → ν) :
    (m.alter k f).get? k' = if compare k' k = .eq then some (f (m.get? k)) else m.get? k' :=
  lookup_alterEntries m.ascending

theorem get?_insert (m : OrderedMap κ ν) (k k' : κ) (v : ν) :
    (m.insert k v).get? k' = if compare k' k = .eq then some v else m.get? k' :=
  m.get?_alter k k' fun _ => v

/-- What some changes made one after the other leave at a key is up to those of them at this key. -/
theorem get?_foldl_alter [Std.LawfulEqOrd κ] [BEq κ] [LawfulBEq κ] {α : Type} (key : α → κ)
    (f : α → Option ν → ν) (xs : List α) (m : OrderedMap κ ν) (k : κ) :
    (xs.foldl (fun m x => m.alter (key x) (f x)) m).get? k =
      (xs.filter fun x => key x == k).foldl (fun v x => some (f x v)) (m.get? k) := by
  induction xs generalizing m with
  | nil => rfl
  | cons x rest ih =>
    rw [List.foldl_cons, ih, get?_alter]
    by_cases hx : key x = k
    · rw [List.filter_cons_of_pos (by simpa using hx), List.foldl_cons, hx,
        if_pos Std.ReflCmp.compare_self]
    · have hne : compare k (key x) ≠ .eq := fun he => hx (Std.LawfulEqOrd.eq_of_compare he).symm
      rw [List.filter_cons_of_neg (by simpa using hx), if_neg hne]

/-- An entry of an ascending list is the one that its key leads to. -/
theorem lookup_of_mem {e : κ × ν} {es : List (κ × ν)}
    (h : es.Pairwise fun a b => compare a.1 b.1 = .lt) (he : e ∈ es) :
    lookup e.1 es = some e.2 := by
  induction es with
  | nil => cases he
  | cons first rest ih =>
    obtain ⟨hfirst, hrest⟩ := List.pairwise_cons.mp h
    rcases List.mem_cons.mp he with rfl | he
    · exact lookup_head e rest
    · have hgt : compare e.1 first.1 = .gt := Std.OrientedCmp.gt_iff_lt.mpr (hfirst e he)
      rw [lookup, if_neg (by simp [hgt]), ih hrest he]

/-- An ascending list has at most one entry of a key. -/
theorem filter_key [Std.LawfulEqOrd κ] [BEq κ] [LawfulBEq κ] {es : List (κ × ν)}
    (h : es.Pairwise fun a b => compare a.1 b.1 = .lt) (k : κ) :
    (es.filter fun e => e.1 == k).map Prod.snd = (lookup k es).toList := by
  induction es with
  | nil => rfl
  | cons e rest ih =>
    obtain ⟨he, hrest⟩ := List.pairwise_cons.mp h
    by_cases hk : e.1 = k
    · subst hk
      have hnone : lookup e.1 rest = none := lookup_eq_none he
      have hfilter := ih hrest
      rw [hnone, Option.toList_none, List.map_eq_nil_iff] at hfilter
      rw [List.filter_cons_of_pos (by simp), hfilter, lookup_head]
      rfl
    · have hne : compare k e.1 ≠ .eq := fun hc => hk (Std.LawfulEqOrd.eq_of_compare hc).symm
      rw [List.filter_cons_of_neg (by simpa using hk), lookup, if_neg hne, ih hrest]

/-- Two ascending lists in which every key leads to related values list related entries. -/
theorem forall₂_of_lookup [Std.LawfulEqOrd κ] {R : ν → ν → Prop} {es es' : List (κ × ν)}
    (h : es.Pairwise fun a b => compare a.1 b.1 = .lt)
    (h' : es'.Pairwise fun a b => compare a.1 b.1 = .lt)
    (hsame : ∀ k, Option.Rel R (lookup k es) (lookup k es')) :
    List.Forall₂ (fun e e' => e.1 = e'.1 ∧ R e.2 e'.2) es es' := by
  induction es generalizing es' with
  | nil =>
    cases es' with
    | nil => exact .nil
    | cons e' rest' =>
      have hfirst := hsame e'.1
      rw [lookup_head] at hfirst
      cases hfirst
  | cons e rest ih =>
    cases es' with
    | nil =>
      have hfirst := hsame e.1
      rw [lookup_head] at hfirst
      cases hfirst
    | cons e' rest' =>
      obtain ⟨he, hrest⟩ := List.pairwise_cons.mp h
      obtain ⟨he', hrest'⟩ := List.pairwise_cons.mp h'
      -- The first keys agree, since each list finds the first key of the other.
      have hkey : e.1 = e'.1 := by
        refine Std.LawfulEqOrd.eq_of_compare ?_
        cases hc : compare e.1 e'.1 with
        | eq => rfl
        | lt =>
          have hfirst := hsame e.1
          rw [lookup_head, lookup_below he' hc] at hfirst
          cases hfirst
        | gt =>
          have hfirst := hsame e'.1
          rw [lookup_head, lookup_below he (Std.OrientedCmp.gt_iff_lt.mp hc)] at hfirst
          cases hfirst
      have hvalue : R e.2 e'.2 := by
        have hfirst := hsame e.1
        rw [lookup_head, hkey, lookup_head] at hfirst
        cases hfirst with
        | some hvalue => exact hvalue
      refine .cons ⟨hkey, hvalue⟩ (ih hrest hrest' fun k => ?_)
      rw [lookup_tail he, lookup_tail he', ← hkey]
      split
      · exact .none
      · exact hsame k

/-- A map is determined by what it holds. -/
theorem ext_get? [Std.LawfulEqOrd κ] {m m' : OrderedMap κ ν} (h : ∀ k, m.get? k = m'.get? k) :
    m = m' := by
  have hrel (k : κ) : Option.Rel Eq (m.get? k) (m'.get? k) := by
    rw [h]
    cases m'.get? k with
    | none => exact .none
    | some v => exact .some rfl
  have hentries : List.Forall₂ Eq m.entries m'.entries :=
    (forall₂_of_lookup m.ascending m'.ascending hrel).imp fun e e' he => Prod.ext he.1 he.2
  rw [List.forall₂_eq_eq_eq] at hentries
  exact OrderedMap.ext hentries

/-- Changing the value at a key is putting the changed value there. -/
theorem alter_eq_insert [Std.LawfulEqOrd κ] (m : OrderedMap κ ν) (k : κ) (f : Option ν → ν) :
    m.alter k f = m.insert k (f (m.get? k)) := by
  apply ext_get?
  intro k'
  rw [get?_alter, get?_insert]

/-- Maps that hold equal values at every key are equal, whatever counts as equal. -/
theorem beq_of_get? [Std.LawfulEqOrd κ] [BEq κ] [LawfulBEq κ] [BEq ν] {m m' : OrderedMap κ ν}
    (h : ∀ k, Option.Rel (fun v v' => (v == v') = true) (m.get? k) (m'.get? k)) :
    (m == m') = true := by
  have hentries := forall₂_of_lookup m.ascending m'.ascending h
  change (m.entries == m'.entries) = true
  generalize m.entries = es at hentries ⊢
  generalize m'.entries = es' at hentries ⊢
  induction hentries with
  | nil => rfl
  | cons he _ ih =>
    rw [List.cons_beq_cons, ih, Bool.and_true]
    exact Bool.and_eq_true_iff.mpr ⟨beq_iff_eq.mpr he.1, he.2⟩

/-- Behind all present keys a new entry comes last. -/
theorem alterEntries_of_lt {k : κ} {f : Option ν → ν} {es : List (κ × ν)}
    (h : ∀ e ∈ es, compare e.1 k = .lt) : alterEntries k f es = es ++ [(k, f none)] := by
  induction es with
  | nil => rfl
  | cons e rest ih =>
    have hgt : compare k e.1 = .gt := Std.OrientedCmp.gt_iff_lt.mpr (h e List.mem_cons_self)
    have hrest := ih fun e' he' => h e' (List.mem_cons_of_mem e he')
    simp only [alterEntries, hgt, hrest, List.cons_append]

theorem entries_foldl_insert {es : List (κ × ν)} {done : OrderedMap κ ν}
    (h : (done.entries ++ es).Pairwise fun a b => compare a.1 b.1 = .lt) :
    (es.foldl (fun m e => m.insert e.1 e.2) done).entries = done.entries ++ es := by
  induction es generalizing done with
  | nil => simp
  | cons e rest ih =>
    obtain ⟨-, -, hlt⟩ := List.pairwise_append.mp h
    have hstep : (done.insert e.1 e.2).entries = done.entries ++ [e] :=
      alterEntries_of_lt fun d hd => hlt d hd e List.mem_cons_self
    have hrest : (done.insert e.1 e.2).entries ++ rest = done.entries ++ e :: rest := by
      rw [hstep, List.append_assoc, List.singleton_append]
    rw [List.foldl_cons, ih (hrest ▸ h), hrest]

/-- A map is the map of its entries. -/
theorem ofList_entries (m : OrderedMap κ ν) : ofList m.entries = m :=
  OrderedMap.ext (@entries_foldl_insert _ _ _ _ m.entries empty m.ascending)

omit [Std.TransOrd κ] in
theorem value_of_mem_alterEntries {k : κ} {v : ν} {es : List (κ × ν)} {x : κ × ν}
    (h : x ∈ alterEntries k (fun _ => v) es) : x.2 = v ∨ x ∈ es := by
  induction es with
  | nil =>
    rw [alterEntries, List.mem_singleton] at h
    exact .inl (congrArg Prod.snd h)
  | cons e rest ih =>
    simp only [alterEntries] at h
    split at h
    · exact (List.mem_cons.mp h).imp_left (congrArg Prod.snd)
    · rcases List.mem_cons.mp h with rfl | h
      · exact .inl rfl
      · exact .inr (List.mem_cons_of_mem e h)
    · rcases List.mem_cons.mp h with rfl | h
      · exact .inr List.mem_cons_self
      · exact (ih h).imp_right (List.mem_cons_of_mem e)

/-- A map of a list holds no other values than those of the list. -/
theorem value_of_mem_ofList {es : List (κ × ν)} {P : ν → Prop} (h : ∀ e ∈ es, P e.2) :
    ∀ x ∈ (ofList es).entries, P x.2 := by
  apply List.foldlRecOn (motive := fun m : OrderedMap κ ν => ∀ x ∈ m.entries, P x.2)
  · simp [empty]
  · intro m hm e he x hx
    rcases value_of_mem_alterEntries hx with hx | hx
    · exact hx ▸ h e he
    · exact hm x hx

end AspAtlas.OrderedMap
