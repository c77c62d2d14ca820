import AspAtlas.Checked
import AspAtlas.Json.Decode
import AspAtlas.Proofs.Json.Reading
import AspAtlas.Proofs.Ordered.Map
/-!
Writers and readers that fit together, from numbers and texts up to records, maps and sets.
-/
namespace AspAtlas

namespace Json

variable {α β : Type} {write : α → Json} {read? : Json → Option α} {fits : α → Prop}

/-- Two steps give a value when both do. Simplification has to use this from the outside in (`↓`):
what comes after a step is nested as deeply as a record has fields. -/
theorem bind_eq_some_iff {o : Option α} {next : α → Option β} {y : β} :
    (o >>= next) = some y ↔ ∃ x, o = some x ∧ next x = some y :=
  Option.bind_eq_some_iff

/-- A writer and a reader of one type: what fits is read back as it
was, and nothing else is read. -/
structure Codec (write : α → Json) (read? : Json → Option α) (fits : α → Prop) : Prop where
  plain : ∀ x, Plain (write x)
  read_write : ∀ {x}, fits x → read? (write x) = some x
  fits_of_read : ∀ {j x}, read? j = some x → fits x

namespace Codec

/-- Written out, a value that fits is read back from its text. -/
theorem parse?_print (c : Codec write read? fits) {x : α} (h : fits x) (layout : Layout) :
    (Json.parse? ((write x).print layout)).bind read? = some x := by
  rw [Json.parse?_print (c.plain x), Option.bind_some, c.read_write h]

theorem nat : Codec nat nat? IsWord where
  plain n := .int n
  read_write {n} h := by
    have hword : (0 : Int) ≤ n ∧ (n : Int) < 18446744073709551616 := by
      rw [IsWord] at h
      omega
    simp only [Json.nat, nat?, hword, and_self, if_true, Int.toNat_natCast]
  fits_of_read {j n} h := by
    cases j <;> simp only [nat?, reduceCtorEq, Option.ite_none_right_eq_some,
      Option.some.injEq] at h
    rw [IsWord]
    omega

theorem text : Codec str text? fun _ => True where
  plain text := .str text
  read_write _ := rfl
  fits_of_read _ := trivial

theorem path : Codec ofPath path? fun _ => True where
  plain p := .str p.text
  read_write _ := rfl
  fits_of_read _ := trivial

theorem letter : Codec (fun c => str (String.singleton c)) char? fun _ => True where
  plain c := .str (String.singleton c)
  read_write _ := by simp [char?]
  fits_of_read _ := trivial

theorem truth : Codec Json.bool bool? fun _ => True where
  plain value := .bool value
  read_write _ := rfl
  fits_of_read _ := trivial

theorem exists_read_of_mapM {item : α → Option β} {xs : List α} {ys : List β}
    (h : xs.mapM item = some ys) : ∀ y ∈ ys, ∃ x ∈ xs, item x = some y := by
  induction xs generalizing ys with
  | nil => simp_all
  | cons x xs ih =>
    simp only [List.mapM_cons, ↓bind_eq_some_iff, Option.pure_def,
      Option.some.injEq] at h
    obtain ⟨y, hy, ys, hys, rfl⟩ := h
    rw [List.forall_mem_cons]
    refine ⟨⟨x, List.mem_cons_self, hy⟩, fun z hz => ?_⟩
    obtain ⟨x', hx', hz⟩ := ih hys z hz
    exact ⟨x', List.mem_cons_of_mem x hx', hz⟩

theorem mapM_map {item : β → Option α} {f : α → β} {xs : List α}
    (h : ∀ x ∈ xs, item (f x) = some x) : (xs.map f).mapM item = some xs := by
  induction xs with
  | nil => rfl
  | cons x xs ih =>
    obtain ⟨hx, hxs⟩ := List.forall_mem_cons.mp h
    simp [hx, ih hxs]

theorem list (c : Codec write read? fits) :
    Codec (ofList write) (list? read?) fun xs => ∀ x ∈ xs, fits x where
  plain xs := by
    refine .arr fun j hj => ?_
    obtain ⟨x, -, rfl⟩ := List.mem_map.mp hj
    exact c.plain x
  read_write {xs} h := mapM_map fun x hx => c.read_write (h x hx)
  fits_of_read {j xs} h := by
    intro x hx
    cases j <;> simp only [list?, reduceCtorEq] at h
    obtain ⟨j, -, hj⟩ := exists_read_of_mapM h x hx
    exact c.fits_of_read hj

theorem fits_of_nullable? (c : Codec write read? fits) {j : Json} {o : Option α}
    (h : nullable? read? j = some o) : ∀ x, o = some x → fits x := by
  rintro x rfl
  cases j <;>
    simp only [nullable?, Option.some.injEq, reduceCtorEq, Option.map_eq_some_iff,
      exists_eq_right] at h
  all_goals exact c.fits_of_read h

/-- Null stands for no value, where no value is written as null. -/
theorem nullable (c : Codec write read? fits) (hnull : ∀ x, write x ≠ null) :
    Codec (fun o : Option α => (o.map write).getD null) (nullable? read?)
      fun o => ∀ x, o = some x → fits x where
  plain o := by
    cases o with
    | none => exact .null
    | some x => exact c.plain x
  read_write {o} h := by
    cases o with
    | none => rfl
    | some x =>
      rw [Option.map_some, Option.getD_some, nullable?, c.read_write (h x rfl), Option.map_some]
      exact hnull x
  fits_of_read h := c.fits_of_nullable? h

theorem str?_eq (o : Option String) : str? o = (o.map str).getD null := by cases o <;> rfl

theorem plain_str? (o : Option String) : Plain (str? o) := by
  rw [str?_eq]
  exact (text.nullable fun _ => by simp).plain o

/-- A map from texts. -/
theorem map (c : Codec write read? fits) :
    Codec (ofMap write) (map? read?) fun m => ∀ e ∈ m.entries, fits e.2 where
  plain m := by
    refine .obj fun e he => ?_
    obtain ⟨e, -, rfl⟩ := List.mem_map.mp he
    exact c.plain e.2
  read_write {m} h := by
    have hread : (m.entries.map fun e => (e.1, write e.2)).mapM
        (fun e => (read? e.2).map fun v => (e.1, v)) = some m.entries := by
      refine mapM_map fun e he => ?_
      rw [c.read_write (h e he), Option.map_some]
    simp only [ofMap, map?, hread, Option.bind_eq_bind, Option.bind_some, OrderedMap.ofList_entries]
  fits_of_read {j m} h := by
    cases j <;>
      simp only [map?, reduceCtorEq, ↓bind_eq_some_iff, Option.some.injEq] at h
    obtain ⟨es, hes, rfl⟩ := h
    refine OrderedMap.value_of_mem_ofList fun e he => ?_
    obtain ⟨x, -, hx⟩ := exists_read_of_mapM hes e he
    obtain ⟨v, hv, rfl⟩ := Option.map_eq_some_iff.mp hx
    exact c.fits_of_read hv

/-- A name out of a list in which no two names are the same. -/
theorem choice {name : α → String} {ofName? : String → Option α}
    (h : ∀ x, ofName? (name x) = some x) :
    Codec (fun x => str (name x)) (choice? ofName?) fun _ => True where
  plain x := .str (name x)
  read_write {x} _ := h x
  fits_of_read _ := trivial

end Codec

section Records

variable {name key : String} {j : Json} {members more : List (String × Json)} {isList : Bool}
  {r : Record}

theorem keys_present (key : String) (write : α → Json) (o : Option α) :
    ((present key write o).map Prod.fst).Sublist [key] := by
  cases o <;> simp [present]

/-- An object whose keys are known and not repeated is the record of its members. -/
theorem record?_obj {names : List String} (hnames : names.Nodup)
    (h : (members.map Prod.fst).Sublist names) :
    record? names (obj members) = some ⟨members, false⟩ := by
  have hknown : members.filter (fun m => names.contains m.1) = members := by
    rw [List.filter_eq_self]
    intro m hm
    rw [List.contains_iff_mem]
    exact h.subset (List.mem_map_of_mem hm)
  simp only [record?, hknown, hnames.sublist h, if_true]

namespace Record

@[simp] theorem get?_cons_self : get? ⟨(name, j) :: more, isList⟩ name = some j := by simp [get?]

@[simp] theorem get?_cons_ne (h : key ≠ name) :
    get? ⟨(key, j) :: more, isList⟩ name = get? ⟨more, isList⟩ name := by
  simp [get?, h]

@[simp] theorem get?_append :
    get? ⟨members ++ more, isList⟩ name =
      (get? ⟨members, isList⟩ name).or (get? ⟨more, isList⟩ name) := by
  simp [get?, List.find?_append, Option.map_or]

@[simp] theorem get?_nil : get? ⟨[], isList⟩ name = none := rfl

@[simp] theorem get?_present_self {o : Option α} :
    get? ⟨present name write o, isList⟩ name = o.map write := by
  cases o <;> simp [present]

@[simp] theorem get?_present_ne {o : Option α} (h : key ≠ name) :
    get? ⟨present key write o, isList⟩ name = none := by
  cases o <;> simp [present, h]

/-- A field is found among those that are kept if it is one of them. -/
theorem get?_filter (keep : String → Bool) :
    get? ⟨members.filter fun m => keep m.1, isList⟩ name =
      if keep name then get? ⟨members, isList⟩ name else none := by
  have hboth : (fun m : String × Json => decide (keep m.1 = true ∧ (m.1 == name) = true)) =
      fun m => keep name && m.1 == name := by
    funext m
    by_cases hname : m.1 = name <;> simp [hname]
  rw [get?, List.find?_filter, hboth]
  cases keep name <;> simp [get?]

/-- A field has its default value unless it is one of those that are kept. -/
theorem defaulted_filter {keep : String → Bool} {x value : α}
    (hget : get? ⟨members, isList⟩ name = some j) (hread : read? j = some x) :
    defaulted ⟨members.filter fun m => keep m.1, isList⟩ name value read? =
      some (if keep name then x else value) := by
  rw [defaulted, get?_filter, hget]
  split_ifs
  · exact hread
  · rfl

end Record

namespace Codec

theorem plain_present (c : Codec write read? fits) (key : String) (o : Option α) :
    ∀ x ∈ present key write o, Plain x.2 := by
  cases o <;> simp [present, c.plain]

theorem fits_field (c : Codec write read? fits) {x : α} (h : r.field name read? = some x) :
    fits x := by
  obtain ⟨j, -, hj⟩ := Option.bind_eq_some_iff.mp h
  exact c.fits_of_read hj

theorem read_field (c : Codec write read? fits) {x : α} (h : fits x)
    (hget : r.get? name = some (write x)) : r.field name read? = some x := by
  rw [Record.field, hget]
  exact c.read_write h

theorem fits_nullable (c : Codec write read? fits) {o : Option α}
    (h : r.nullable name read? = some o) : ∀ x, o = some x → fits x := by
  rw [Record.nullable] at h
  split at h
  · exact c.fits_of_nullable? h
  · split_ifs at h
    cases h
    simp

theorem read_nullable (c : Codec write read? fits) (hnull : ∀ x, write x ≠ null) {o : Option α}
    (h : ∀ x, o = some x → fits x) (hget : r.get? name = some ((o.map write).getD null)) :
    r.nullable name read? = some o := by
  rw [Record.nullable, hget]
  exact (c.nullable hnull).read_write h

theorem fits_defaulted (c : Codec write read? fits) {x value : α} (hvalue : fits value)
    (h : r.defaulted name value read? = some x) : fits x := by
  rw [Record.defaulted] at h
  split at h
  · exact c.fits_of_read h
  · cases h
    exact hvalue

/-- A field that is left out where it has its default value. -/
theorem read_defaulted (c : Codec write read? fits) {x value : α} (h : fits x)
    (hget : r.get? name = some (write x) ∨ r.get? name = none ∧ x = value) :
    r.defaulted name value read? = some x := by
  rw [Record.defaulted]
  rcases hget with hget | ⟨hget, rfl⟩
  · rw [hget]
    exact c.read_write h
  · rw [hget]

theorem read_kept (c : Codec write read? fits) {keep : String → Bool} {x value : α} (h : fits x)
    (hget : Record.get? ⟨members, isList⟩ name = some (write x)) :
    Record.defaulted ⟨members.filter fun m => keep m.1, isList⟩ name value read? =
      some (if keep name then x else value) :=
  Record.defaulted_filter hget (c.read_write h)

/-- A field that is left out where there is no value. -/
theorem read_present (c : Codec write read? fits) (hnull : ∀ x, write x ≠ null) {o : Option α}
    (h : ∀ x, o = some x → fits x) (hget : r.get? name = o.map write) :
    r.defaulted name none (nullable? read?) = some o := by
  refine (c.nullable hnull).read_defaulted h ?_
  cases o with
  | none => exact .inr ⟨hget, rfl⟩
  | some x => exact .inl hget

end Codec
end Records
end Json

/-- A position with numbers of 64 bits. -/
structure Position.Fits (p : Position) : Prop where
  line : IsWord p.line
  column : IsWord p.column

/-- A location with numbers of 64 bits. -/
structure Location.Fits (l : Location) : Prop where
  begin : l.begin.Fits
  stop : l.stop.Fits

namespace Json.Codec

theorem position : Codec ofPosition position? Position.Fits where
  plain p := .obj (by simp [nat.plain])
  read_write {p} h := by
    have hrecord : record? ["line", "column"] (ofPosition p) = some ⟨_, false⟩ :=
      record?_obj (by simp) (.refl _)
    simp only [position?, ↓bind_eq_some_iff, Option.some.injEq]
    refine ⟨_, hrecord, _, nat.read_field h.line ?_, _, nat.read_field h.column ?_, rfl⟩ <;> simp
  fits_of_read {j p} h := by
    simp only [position?, ↓bind_eq_some_iff, Option.some.injEq] at h
    obtain ⟨r, -, line, hline, column, hcolumn, rfl⟩ := h
    exact ⟨nat.fits_field hline, nat.fits_field hcolumn⟩

theorem location : Codec ofLocation location? Location.Fits where
  plain l := .obj (by simp [path.plain, position.plain])
  read_write {l} h := by
    have hrecord : record? ["file", "begin", "end"] (ofLocation l) = some ⟨_, false⟩ :=
      record?_obj (by simp) (.refl _)
    simp only [location?, ↓bind_eq_some_iff, Option.some.injEq]
    refine ⟨_, hrecord, _, path.read_field trivial ?_, _, position.read_field h.begin ?_, _,
      position.read_field h.stop ?_, rfl⟩ <;> simp
  fits_of_read {j l} h := by
    simp only [location?, ↓bind_eq_some_iff, Option.some.injEq] at h
    obtain ⟨r, -, file, -, first, hbegin, stop, hstop, rfl⟩ := h
    exact ⟨position.fits_field hbegin, position.fits_field hstop⟩

end Json.Codec
end AspAtlas
