import AspAtlas.Directive.Extract
import AspAtlas.Proofs.Ordered.Appearance
/-!
What an index makes of a row of directives: names and subjects by their first appearance, one entry
for each subject. Of the row only this much counts, so that indexes can be put together in any way
that keeps the order of the directives.
-/
namespace AspAtlas

section Upsert

variable {β κ : Type} [BEq κ] [LawfulBEq κ] {key : β → κ} {k : κ} {update : β → β} {fresh : β}

/-- Updates the first item under a key, or adds a fresh one at the end. -/
def upsert (key : β → κ) (k : κ) (update : β → β) (fresh : β) : List β → List β
  | [] => [fresh]
  | b :: rest => if key b == k then update b :: rest else b :: upsert key k update fresh rest

theorem upsert_of_not_mem {bs : List β} (h : k ∉ bs.map key) :
    upsert key k update fresh bs = bs ++ [fresh] := by
  induction bs with
  | nil => rfl
  | cons b bs ih =>
    rw [List.map_cons, List.mem_cons, not_or] at h
    have hb : (key b == k) = false := beq_eq_false_iff_ne.mpr (Ne.symm h.1)
    rw [upsert, hb, if_neg Bool.false_ne_true, ih h.2, List.cons_append]

theorem upsert_append_of_not_mem {bs more : List β} (h : k ∉ bs.map key) :
    upsert key k update fresh (bs ++ more) = bs ++ upsert key k update fresh more := by
  induction bs with
  | nil => rfl
  | cons b bs ih =>
    rw [List.map_cons, List.mem_cons, not_or] at h
    have hb : (key b == k) = false := beq_eq_false_iff_ne.mpr (Ne.symm h.1)
    rw [List.cons_append, upsert, hb, if_neg Bool.false_ne_true, ih h.2, List.cons_append]

/-- The keys stay, and a new one comes behind them. -/
theorem keys_upsert (hupdate : ∀ b, key (update b) = key b) (hfresh : key fresh = k) (bs : List β) :
    (upsert key k update fresh bs).map key =
      if (bs.map key).elem k then bs.map key else bs.map key ++ [k] := by
  induction bs with
  | nil => simp [upsert, hfresh]
  | cons b bs ih =>
    rw [upsert]
    by_cases hb : key b = k
    · simp [hb, hupdate]
    · have hb' : (key b == k) = false := beq_eq_false_iff_ne.mpr hb
      have hk : (k == key b) = false := beq_eq_false_iff_ne.mpr (Ne.symm hb)
      rw [hb', if_neg Bool.false_ne_true, List.map_cons, ih, List.map_cons, List.elem_cons, hk]
      cases (bs.map key).elem k <;> rfl

/-- What an item of the updated list is, where no two items share a key. -/
theorem mem_upsert {bs : List β} (hnodup : (bs.map key).Nodup) {b : β}
    (hb : b ∈ upsert key k update fresh bs) :
    (b ∈ bs ∧ key b ≠ k) ∨ (∃ a ∈ bs, key a = k ∧ b = update a) ∨ (k ∉ bs.map key ∧ b = fresh) := by
  induction bs with
  | nil => exact .inr (.inr ⟨by simp, List.mem_singleton.mp hb⟩)
  | cons a bs ih =>
    obtain ⟨ha, hbs⟩ := List.nodup_cons.mp hnodup
    rw [upsert] at hb
    by_cases hk : key a = k
    · rw [if_pos (beq_iff_eq.mpr hk)] at hb
      rcases List.mem_cons.mp hb with rfl | hb
      · exact .inr (.inl ⟨a, List.mem_cons_self, hk, rfl⟩)
      · refine .inl ⟨List.mem_cons_of_mem a hb, fun he => ha ?_⟩
        rw [hk, ← he]
        exact List.mem_map_of_mem hb
    · rw [if_neg (fun he => hk (beq_iff_eq.mp he))] at hb
      rcases List.mem_cons.mp hb with rfl | hb
      · exact .inl ⟨List.mem_cons_self, hk⟩
      · rcases ih hbs hb with ⟨hmem, hne⟩ | ⟨c, hc, hck, rfl⟩ | ⟨hnone, rfl⟩
        · exact .inl ⟨List.mem_cons_of_mem a hmem, hne⟩
        · exact .inr (.inl ⟨c, List.mem_cons_of_mem a hc, hck, rfl⟩)
        · refine .inr (.inr ⟨?_, rfl⟩)
          rw [List.map_cons, List.mem_cons, not_or]
          exact ⟨Ne.symm hk, hnone⟩

end Upsert

/-- Two lists are equal when their images are and an image tells its item. -/
theorem eq_of_map_eq {α β : Type} {f : α → β} {xs ys : List α} (h : xs.map f = ys.map f)
    (hinj : ∀ x ∈ xs, ∀ y ∈ ys, f x = f y → x = y) : xs = ys := by
  induction xs generalizing ys with
  | nil => exact (List.map_eq_nil_iff.mp h.symm).symm
  | cons x xs ih =>
    cases ys with
    | nil => simp at h
    | cons y ys =>
      obtain ⟨hhead, htail⟩ := List.cons.inj h
      rw [hinj x List.mem_cons_self y List.mem_cons_self hhead, ih htail]
      intro a ha b hb
      exact hinj a (List.mem_cons_of_mem x ha) b (List.mem_cons_of_mem y hb)

namespace Directive

/-- Whether a directive has a name and a subject. -/
def isOn (name subject : String) (d : Directive) : Bool := d.name == name && d.subject == subject

/-- The directive with the description of another one, if it has none of its own. -/
def fill (d e : Directive) : Directive := { d with description := d.description <|> e.description }

@[simp] theorem name_fill (d e : Directive) : (d.fill e).name = d.name := rfl

@[simp] theorem subject_fill (d e : Directive) : (d.fill e).subject = d.subject := rfl

@[simp] theorem fill_self (d : Directive) : d.fill d = d := by
  cases h : d.description <;> simp [fill, h] <;> rw [← h]

/-- The subjects under a name, by their first appearance. -/
def subjectsUnder (name : String) (ds : List Directive) : List String :=
  ((ds.filter fun d => d.name == name).map subject).eraseDups

/-- The first of some directives with a name and a subject, with the first description that any of
these has. -/
def entryOn? (name subject : String) (ds : List Directive) : Option Directive :=
  (ds.find? (isOn name subject)).map fun first =>
    { first with description := (ds.filter (isOn name subject)).findSome? description }

variable {name subject : String} {d : Directive} {ds : List Directive}

theorem isOn_iff : d.isOn name subject = true ↔ d.name = name ∧ d.subject = subject := by
  simp [isOn]

theorem entryOn?_singleton (d : Directive) (name subject : String) :
    entryOn? name subject [d] = if d.isOn name subject then some d else none := by
  cases h : d.isOn name subject <;> simp [entryOn?, h]

/-- Of two rows, the second one fills in the description that the first one lacks. -/
theorem entryOn?_append (ds es : List Directive) (name subject : String) :
    entryOn? name subject (ds ++ es) =
      Option.merge fill (entryOn? name subject ds) (entryOn? name subject es) := by
  simp only [entryOn?, List.find?_append, List.filter_append, List.findSome?_append]
  cases hds : ds.find? (isOn name subject) with
  | none =>
    have hnone : ds.filter (isOn name subject) = [] :=
      List.filter_eq_nil_iff.mpr fun d hd => by simpa using List.find?_eq_none.mp hds d hd
    simp [hnone]
  | some first =>
    cases hes : es.find? (isOn name subject) with
    | none =>
      have hnone : es.filter (isOn name subject) = [] :=
        List.filter_eq_nil_iff.mpr fun d hd => by simpa using List.find?_eq_none.mp hes d hd
      simp [hnone]
    | some second => simp [fill, Option.merge]

theorem entryOn?_concat_of_ne (h : ¬ (d.name = name ∧ d.subject = subject)) :
    entryOn? name subject (ds ++ [d]) = entryOn? name subject ds := by
  have hd : d.isOn name subject = false := by
    rw [Bool.eq_false_iff]
    exact fun he => h (isOn_iff.mp he)
  rw [entryOn?_append, entryOn?_singleton, hd]
  cases entryOn? name subject ds <;> rfl

theorem entryOn?_eq_none (h : subject ∉ subjectsUnder name ds) :
    entryOn? name subject ds = none := by
  rw [entryOn?, Option.map_eq_none_iff, List.find?_eq_none]
  intro d hd hon
  obtain ⟨hname, hsubject⟩ := isOn_iff.mp hon
  apply h
  rw [subjectsUnder, List.mem_eraseDups, List.mem_map]
  exact ⟨d, List.mem_filter.mpr ⟨hd, beq_iff_eq.mpr hname⟩, hsubject⟩

theorem entryOn?_spec (h : entryOn? name subject ds = some d) :
    d.name = name ∧ d.subject = subject := by
  obtain ⟨first, hfirst, rfl⟩ := Option.map_eq_some_iff.mp h
  have hon : first.isOn name subject = true := List.find?_some hfirst
  exact isOn_iff.mp hon

theorem mem_subjectsUnder :
    subject ∈ subjectsUnder name ds ↔ ∃ d ∈ ds, d.name = name ∧ d.subject = subject := by
  simp [subjectsUnder, and_assoc]

theorem subjectsUnder_eq_nil (h : ∀ d ∈ ds, d.name ≠ name) : subjectsUnder name ds = [] := by
  have hnone : (ds.filter fun d => d.name == name) = [] :=
    List.filter_eq_nil_iff.mpr fun d hd => by simpa using h d hd
  rw [subjectsUnder, hnone, List.map_nil, List.eraseDups_nil]

theorem subjectsUnder_concat (d : Directive) (ds : List Directive) :
    subjectsUnder d.name (ds ++ [d]) =
      if (subjectsUnder d.name ds).elem d.subject then subjectsUnder d.name ds
      else subjectsUnder d.name ds ++ [d.subject] := by
  have hlast : [d].filter (fun e => e.name == d.name) = [d] := by simp
  have hmem (s : String) : (((ds.filter fun e => e.name == d.name).map Directive.subject).elem s) =
      (subjectsUnder d.name ds).elem s := by
    rw [Bool.eq_iff_iff, List.elem_iff, List.elem_iff, subjectsUnder, List.mem_eraseDups]
  rw [subjectsUnder, List.filter_append, hlast, List.map_append, List.map_singleton,
    eraseDups_concat, hmem]
  rfl

theorem subjectsUnder_concat_of_ne (h : d.name ≠ name) :
    subjectsUnder name (ds ++ [d]) = subjectsUnder name ds := by
  simp [subjectsUnder, h]

end Directive

namespace DirectiveGroup

theorem place_eq_upsert (d : Directive) (es : List Directive) :
    place d es = upsert Directive.subject d.subject (fun e => e.fill d) d es := by
  induction es with
  | nil => rfl
  | cons e es ih =>
    rw [place, upsert, ih]
    rfl

end DirectiveGroup

namespace DirectiveIndex

open Directive (subjectsUnder entryOn?)

theorem placeGroup_eq_upsert (d : Directive) (gs : List DirectiveGroup) :
    placeGroup d gs = upsert DirectiveGroup.name d.name
      (fun g => { g with directives := DirectiveGroup.place d g.directives }) ⟨d.name, [d]⟩ gs := by
  induction gs with
  | nil => rfl
  | cons g gs ih => rw [placeGroup, upsert, ih]

/-- An index gathers a row of directives: its groups stand in the order in which their names first
appear, the entries of a group in the order of their subjects, and each entry is the first directive
on its subject, with the first description of all on it. -/
structure Gathers (index : DirectiveIndex) (ds : List Directive) : Prop where
  names : index.names = (ds.map Directive.name).eraseDups
  subjects : ∀ g ∈ index.groups, g.directives.map Directive.subject = subjectsUnder g.name ds
  entries : ∀ g ∈ index.groups, ∀ e ∈ g.directives, entryOn? g.name e.subject ds = some e

/-- What counts of a row of directives. -/
structure ShowsAs (ds es : List Directive) : Prop where
  names : (ds.map Directive.name).eraseDups = (es.map Directive.name).eraseDups
  subjects : ∀ name, subjectsUnder name ds = subjectsUnder name es
  entries : ∀ name subject, entryOn? name subject ds = entryOn? name subject es

variable {index other : DirectiveIndex} {ds es : List Directive} {d : Directive}

namespace Gathers

theorem nodup_names (h : index.Gathers ds) : index.names.Nodup := by
  rw [h.names]
  exact nodup_eraseDups _

theorem mem_names (h : index.Gathers ds) {name : String} :
    name ∈ index.names ↔ ∃ d ∈ ds, d.name = name := by
  rw [h.names, List.mem_eraseDups, List.mem_map]

theorem nodup_subjects (h : index.Gathers ds) {g : DirectiveGroup} (hg : g ∈ index.groups) :
    (g.directives.map Directive.subject).Nodup := by
  rw [h.subjects g hg]
  exact nodup_eraseDups _

theorem ne_nil (h : index.Gathers ds) {g : DirectiveGroup} (hg : g ∈ index.groups) :
    g.directives ≠ [] := by
  intro hnil
  obtain ⟨d, hd, hname⟩ := h.mem_names.mp (List.mem_map_of_mem hg)
  have hmem : d.subject ∈ subjectsUnder g.name ds :=
    Directive.mem_subjectsUnder.mpr ⟨d, hd, hname, rfl⟩
  rw [← h.subjects g hg, hnil] at hmem
  cases hmem

theorem name_of_mem (h : index.Gathers ds) {g : DirectiveGroup} (hg : g ∈ index.groups)
    {e : Directive} (he : e ∈ g.directives) : e.name = g.name :=
  (Directive.entryOn?_spec (h.entries g hg e he)).1

/-- A row of directives tells what gathers it. -/
theorem unique (h : index.Gathers ds) (h' : other.Gathers ds) : index = other := by
  obtain ⟨gs⟩ := index
  obtain ⟨gs'⟩ := other
  rw [mk.injEq]
  refine eq_of_map_eq (h.names.trans h'.names.symm) fun g hg g' hg' hname => ?_
  have hdirectives : g.directives = g'.directives := by
    refine eq_of_map_eq (f := Directive.subject) ?_ fun e he e' he' hsubject => ?_
    · rw [h.subjects g hg, h'.subjects g' hg', hname]
    · have hentry := h.entries g hg e he
      rw [hname, hsubject, h'.entries g' hg' e' he', Option.some.injEq] at hentry
      exact hentry.symm
  cases g
  cases g'
  simp_all

theorem empty : Gathers {} [] := ⟨rfl, by simp, by simp⟩

theorem names_insert (h : index.Gathers ds) (d : Directive) :
    (index.insert d).names = ((ds ++ [d]).map Directive.name).eraseDups := by
  have hkeys : (index.insert d).names =
      if index.names.elem d.name then index.names else index.names ++ [d.name] := by
    rw [DirectiveIndex.insert, placeGroup_eq_upsert]
    change (upsert DirectiveGroup.name _ _ _ _).map DirectiveGroup.name = _
    rw [keys_upsert]
    · rfl
    · exact fun _ => rfl
    · rfl
  have hmem : index.names.elem d.name = (ds.map Directive.name).elem d.name := by
    rw [h.names, Bool.eq_iff_iff, List.elem_iff, List.elem_iff, List.mem_eraseDups]
  rw [hkeys, hmem, List.map_append, List.map_singleton, eraseDups_concat, h.names]

/-- The groups of an index with one more directive: another group, the group of its name with the
directive placed in it, or a group of its own. -/
theorem mem_groups_insert (h : index.Gathers ds) {g : DirectiveGroup}
    (hg : g ∈ (index.insert d).groups) :
    (g ∈ index.groups ∧ g.name ≠ d.name) ∨
      (∃ g' ∈ index.groups, g'.name = d.name ∧
        g = { g' with directives := DirectiveGroup.place d g'.directives }) ∨
      (∀ e ∈ ds, e.name ≠ d.name) ∧ g = ⟨d.name, [d]⟩ := by
  rw [DirectiveIndex.insert, placeGroup_eq_upsert] at hg
  rcases mem_upsert h.nodup_names hg with hother | hsame | ⟨hnone, hfresh⟩
  · exact .inl hother
  · exact .inr (.inl hsame)
  · refine .inr (.inr ⟨fun e he hname => hnone (h.mem_names.mpr ⟨e, he, hname⟩), hfresh⟩)

theorem subjects_insert (h : index.Gathers ds) {g : DirectiveGroup}
    (hg : g ∈ (index.insert d).groups) :
    g.directives.map Directive.subject = subjectsUnder g.name (ds ++ [d]) := by
  rcases h.mem_groups_insert hg with ⟨hmem, hne⟩ | ⟨g', hmem, hname, rfl⟩ | ⟨hnone, rfl⟩
  · rw [h.subjects g hmem, Directive.subjectsUnder_concat_of_ne (Ne.symm hne)]
  · rw [DirectiveGroup.place_eq_upsert, keys_upsert (fun e => e.subject_fill d) rfl,
      h.subjects g' hmem, hname, Directive.subjectsUnder_concat]
  · rw [Directive.subjectsUnder_concat, Directive.subjectsUnder_eq_nil hnone]
    rfl

theorem entries_insert (h : index.Gathers ds) {g : DirectiveGroup}
    (hg : g ∈ (index.insert d).groups) {e : Directive} (he : e ∈ g.directives) :
    entryOn? g.name e.subject (ds ++ [d]) = some e := by
  have hsingle : entryOn? d.name d.subject [d] = some d := by
    rw [Directive.entryOn?_singleton, if_pos (Directive.isOn_iff.mpr ⟨rfl, rfl⟩)]
  rcases h.mem_groups_insert hg with ⟨hmem, hne⟩ | ⟨g', hmem, hname, rfl⟩ | ⟨hnone, rfl⟩
  · rw [Directive.entryOn?_concat_of_ne fun hon => hne hon.1.symm, h.entries g hmem e he]
  · rw [DirectiveGroup.place_eq_upsert] at he
    rcases mem_upsert (h.nodup_subjects hmem) he with
      ⟨he, hne⟩ | ⟨a, ha, hsubject, rfl⟩ | ⟨hnew, rfl⟩
    · rw [Directive.entryOn?_concat_of_ne fun hon => hne hon.2.symm, h.entries g' hmem e he]
    · rw [Directive.entryOn?_append, Directive.subject_fill, h.entries g' hmem a ha, hname,
        hsubject, hsingle]
      rfl
    · rw [h.subjects g' hmem] at hnew
      rw [Directive.entryOn?_append, Directive.entryOn?_eq_none hnew, hname, hsingle]
      rfl
  · obtain rfl := List.mem_singleton.mp he
    have hnew : e.subject ∉ subjectsUnder e.name ds := by
      rw [Directive.subjectsUnder_eq_nil hnone]
      exact List.not_mem_nil
    rw [Directive.entryOn?_append, Directive.entryOn?_eq_none hnew, hsingle]
    rfl

/-- One more directive inserted is one more directive gathered. -/
theorem insert (h : index.Gathers ds) (d : Directive) : (index.insert d).Gathers (ds ++ [d]) :=
  ⟨h.names_insert d, fun _ hg => h.subjects_insert hg, fun _ hg _ he => h.entries_insert hg he⟩

theorem foldl_insert (h : index.Gathers ds) (es : List Directive) :
    (es.foldl DirectiveIndex.insert index).Gathers (ds ++ es) := by
  induction es generalizing index ds with
  | nil => rwa [List.append_nil]
  | cons e es ih =>
    have hstep := ih (h.insert e)
    rwa [List.append_assoc, List.singleton_append] at hstep

/-- The group of a name, entry by entry. -/
theorem get (h : index.Gathers ds) (name : String) :
    index.get name = (subjectsUnder name ds).filterMap fun subject => entryOn? name subject ds := by
  cases hfind : index.groups.find? fun g => g.name == name with
  | none =>
    have hnone : ∀ d ∈ ds, d.name ≠ name := by
      intro d hd hname
      obtain ⟨g, hg, hgroup⟩ := List.mem_map.mp (h.mem_names.mpr ⟨d, hd, hname⟩)
      exact absurd (beq_iff_eq.mpr hgroup) (List.find?_eq_none.mp hfind g hg)
    rw [DirectiveIndex.get, hfind, Directive.subjectsUnder_eq_nil hnone, List.filterMap_nil]
  | some g =>
    have hg : g ∈ index.groups := List.mem_of_find?_eq_some hfind
    obtain rfl : g.name = name := by simpa using List.find?_some hfind
    have hentries : g.directives.filterMap (fun e => entryOn? g.name e.subject ds) =
        g.directives.filterMap some :=
      List.filterMap_congr fun e he => h.entries g hg e he
    rw [DirectiveIndex.get, hfind, ← h.subjects g hg, List.filterMap_map]
    exact (hentries.trans List.filterMap_some).symm

/-- Rows that are gathered by one index show the same. -/
theorem showsAs (h : index.Gathers ds) (h' : index.Gathers es) : ShowsAs ds es := by
  have hsubjects (name : String) : subjectsUnder name ds = subjectsUnder name es := by
    by_cases hname : name ∈ index.names
    · obtain ⟨g, hg, rfl⟩ := List.mem_map.mp hname
      rw [← h.subjects g hg, h'.subjects g hg]
    · rw [Directive.subjectsUnder_eq_nil fun d hd he => hname (h.mem_names.mpr ⟨d, hd, he⟩),
        Directive.subjectsUnder_eq_nil fun d hd he => hname (h'.mem_names.mpr ⟨d, hd, he⟩)]
  refine ⟨h.names.symm.trans h'.names, hsubjects, fun name subject => ?_⟩
  by_cases hmem : subject ∈ subjectsUnder name ds
  · obtain ⟨d, hd, rfl, rfl⟩ := Directive.mem_subjectsUnder.mp hmem
    obtain ⟨g, hg, hname⟩ := List.mem_map.mp (h.mem_names.mpr ⟨d, hd, rfl⟩)
    rw [← hname, ← h.subjects g hg] at hmem
    obtain ⟨e, he, hsubject⟩ := List.mem_map.mp hmem
    rw [← hname, ← hsubject, h.entries g hg e he, h'.entries g hg e he]
  · rw [Directive.entryOn?_eq_none hmem]
    rw [hsubjects name] at hmem
    rw [Directive.entryOn?_eq_none hmem]

theorem of_showsAs (h : index.Gathers ds) (hsame : ShowsAs ds es) : index.Gathers es where
  names := h.names.trans hsame.names
  subjects g hg := (h.subjects g hg).trans (hsame.subjects g.name)
  entries g hg e he := (hsame.entries g.name e.subject).symm.trans (h.entries g hg e he)

end Gathers

/-- Rows that show the same do so behind other directives. -/
theorem ShowsAs.append (h : ShowsAs ds es) (before : List Directive) :
    ShowsAs (before ++ ds) (before ++ es) where
  names := by
    rw [List.map_append, List.map_append]
    exact eraseDups_append_congr h.names _
  subjects name := by
    simp only [subjectsUnder, List.filter_append, List.map_append]
    exact eraseDups_append_congr (h.subjects name) _
  entries name subject := by
    rw [Directive.entryOn?_append, Directive.entryOn?_append, h.entries name subject]

/-- A row shows the same a second time. -/
theorem showsAs_append_self (ds : List Directive) : ShowsAs (ds ++ ds) ds where
  names := by rw [List.map_append, eraseDups_append_self]
  subjects name := by
    simp only [subjectsUnder, List.filter_append, List.map_append]
    exact eraseDups_append_self _
  entries name subject := by
    rw [Directive.entryOn?_append]
    cases entryOn? name subject ds with
    | none => rfl
    | some d => exact congrArg some d.fill_self

theorem gathers_ofList (ds : List Directive) : (ofList ds).Gathers ds :=
  Gathers.empty.foldl_insert ds

theorem gathers_iff : index.Gathers ds ↔ index = ofList ds := by
  constructor
  · intro h
    exact h.unique (gathers_ofList ds)
  · rintro rfl
    exact gathers_ofList ds

section Regroup

variable {gs : List DirectiveGroup} {name : String}

/-- The entries of a group, inserted one by one behind others of that group. -/
theorem foldl_insert_entries (hnew : name ∉ gs.map DirectiveGroup.name) (before es : List Directive)
    (hbefore : before ≠ []) (hname : ∀ e ∈ es, e.name = name)
    (hsubjects : ((before ++ es).map Directive.subject).Nodup) :
    es.foldl insert ⟨gs ++ [⟨name, before⟩]⟩ = ⟨gs ++ [⟨name, before ++ es⟩]⟩ := by
  induction es generalizing before with
  | nil => rw [List.append_nil, List.foldl_nil]
  | cons e es ih =>
    obtain ⟨rfl, hrest⟩ := List.forall_mem_cons.mp hname
    have hsubject : e.subject ∉ before.map Directive.subject := by
      rw [List.map_append, List.nodup_append] at hsubjects
      intro hmem
      exact hsubjects.2.2 _ hmem _ (List.mem_map_of_mem List.mem_cons_self) rfl
    have hstep : insert ⟨gs ++ [⟨e.name, before⟩]⟩ e = ⟨gs ++ [⟨e.name, before ++ [e]⟩]⟩ := by
      rw [insert, placeGroup_eq_upsert, upsert_append_of_not_mem hnew, upsert, beq_self_eq_true,
        if_pos rfl, DirectiveGroup.place_eq_upsert, upsert_of_not_mem hsubject]
    rw [List.foldl_cons, hstep, ih (before ++ [e]) (by simp) hrest (by simpa using hsubjects),
      List.append_assoc, List.singleton_append]

theorem foldl_insert_group {g : DirectiveGroup} (hnew : g.name ∉ gs.map DirectiveGroup.name)
    (hne : g.directives ≠ []) (hname : ∀ e ∈ g.directives, e.name = g.name)
    (hsubjects : (g.directives.map Directive.subject).Nodup) :
    g.directives.foldl insert ⟨gs⟩ = ⟨gs ++ [g]⟩ := by
  obtain ⟨name, es⟩ := g
  cases es with
  | nil => exact absurd rfl hne
  | cons e es =>
    obtain ⟨rfl, hrest⟩ := List.forall_mem_cons.mp hname
    have hfirst : insert ⟨gs⟩ e = ⟨gs ++ [⟨e.name, [e]⟩]⟩ := by
      rw [insert, placeGroup_eq_upsert, upsert_of_not_mem hnew]
    rw [List.foldl_cons, hfirst, foldl_insert_entries hnew [e] es (by simp) hrest hsubjects]
    rfl

/-- An index is rebuilt from its directives, group by group. -/
theorem ofList_toList (h : index.Gathers ds) : ofList index.toList = index := by
  have hgroups : ∀ before after, index.groups = before ++ after →
      (after.flatMap DirectiveGroup.directives).foldl insert ⟨before⟩ = index := by
    intro before after heq
    induction after generalizing before with
    | nil =>
      rw [List.append_nil] at heq
      rw [List.flatMap_nil, List.foldl_nil, ← heq]
    | cons g after ih =>
      have hg : g ∈ index.groups := by
        rw [heq]
        exact List.mem_append_cons_self
      have hnew : g.name ∉ before.map DirectiveGroup.name := by
        have hnodup := h.nodup_names
        rw [names, heq, List.map_append, List.nodup_append] at hnodup
        intro hmem
        exact hnodup.2.2 _ hmem _ (List.mem_map_of_mem List.mem_cons_self) rfl
      rw [List.flatMap_cons, List.foldl_append, foldl_insert_group hnew (h.ne_nil hg)
        (fun _ => h.name_of_mem hg) (h.nodup_subjects hg)]
      exact ih (before ++ [g]) (by rw [heq, List.append_assoc, List.singleton_append])
  exact hgroups [] index.groups rfl

end Regroup

theorem extend_ofList (ds es : List Directive) :
    (ofList ds).extend (ofList es) = ofList (ds ++ es) := by
  -- one index gathers `es` and its own directives, so that both count as the same behind `ds`
  have htwice : (ofList es).Gathers (ofList es).toList :=
    gathers_iff.mpr (ofList_toList (gathers_ofList es)).symm
  have hsame : ShowsAs (ofList es).toList es := htwice.showsAs (gathers_ofList es)
  have hall : ((ofList ds).extend (ofList es)).Gathers (ds ++ (ofList es).toList) :=
    (gathers_ofList ds).foldl_insert _
  exact gathers_iff.mp (hall.of_showsAs (hsame.append ds))

theorem ofList_append_self (ds : List Directive) : ofList (ds ++ ds) = ofList ds :=
  gathers_iff.mp ((gathers_ofList (ds ++ ds)).of_showsAs (showsAs_append_self ds))

/-- The index of a row of directives is the one index that gathers it: no two groups share
a name and none is empty, no two entries of a group share a subject. Indexes are put
together as the rows are, in whatever order, and one that is put to itself stays as it is;
so does the index of a file. -/
theorem ofList_gathers_and_extends (ds es fs : List Directive) :
    (∀ index : DirectiveIndex, index.Gathers ds ↔ index = ofList ds) ∧
    (ofList ds).names.Nodup ∧
    (∀ g ∈ (ofList ds).groups, g.directives ≠ [] ∧ (g.directives.map Directive.subject).Nodup) ∧
    (ofList ds).extend (ofList es) = ofList (ds ++ es) ∧
    (ofList ds).extend {} = ofList ds ∧ extend {} (ofList ds) = ofList ds ∧
    ((ofList ds).extend (ofList es)).extend (ofList fs) =
      (ofList ds).extend ((ofList es).extend (ofList fs)) ∧
    (ofList ds).extend (ofList ds) = ofList ds ∧
    ∀ (e : DirectiveExtractor) (lines : List String) (file : Path),
      (e.extract lines file).extend (e.extract lines file) = e.extract lines file := by
  have h := gathers_ofList ds
  have hself (ds : List Directive) : (ofList ds).extend (ofList ds) = ofList ds := by
    rw [extend_ofList, ofList_append_self]
  refine ⟨fun _ => gathers_iff, h.nodup_names, fun g hg => ⟨h.ne_nil hg, h.nodup_subjects hg⟩,
    extend_ofList ds es, rfl, extend_ofList [] ds, ?_, hself ds, fun e lines file => hself _⟩
  rw [extend_ofList, extend_ofList, extend_ofList, extend_ofList, List.append_assoc]

end DirectiveIndex
end AspAtlas
