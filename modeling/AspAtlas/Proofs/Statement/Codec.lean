import AspAtlas.Proofs.Json.Codec
import AspAtlas.Statement.Json
/-!
Directives, predicates, variables and statements are read back from how they are written.
-/
namespace AspAtlas

open Json

/-- A directive whose line number is of 64 bits. -/
structure Directive.Fits (d : Directive) : Prop where
  lineNumber : IsWord d.lineNumber

/-- A predicate entry with numbers of 64 bits. -/
structure Symbol.Fits (s : Symbol) : Prop where
  arity : IsWord s.arity
  arguments : ∀ e ∈ s.arguments.entries, IsWord e.2
  location : s.location.Fits
  occurrenceCount : IsWord s.occurrenceCount

/-- A variable with numbers of 64 bits. -/
structure Variable.Fits (v : Variable) : Prop where
  location : v.location.Fits
  occurrences : ∀ l ∈ v.occurrences, l.Fits

/-- A statement with numbers of 64 bits. -/
structure Statement.Fits (s : Statement) : Prop where
  defines : ∀ a ∈ s.defines, a.Fits
  dependsOn : ∀ a ∈ s.dependsOn, a.Fits
  heading : ∀ d, s.heading = some d → d.Fits
  location : s.location.Fits
  number : ∀ n, s.number = some n → IsWord n

namespace Json.Codec

theorem texts : Codec (ofList str) (list? text?) fun _ => True where
  plain := text.list.plain
  read_write _ := text.list.read_write fun _ _ => trivial
  fits_of_read _ := trivial

theorem kind : Codec (fun k : StatementKind => str k.name) (choice? StatementKind.ofName?)
    fun _ => True :=
  choice fun k => by cases k <;> simp [StatementKind.ofName?, StatementKind.all, StatementKind.name]

theorem directive : Codec Directive.toJson Directive.ofJson? Directive.Fits where
  plain d := .obj (by simp [text.plain, texts.plain, plain_str?, nat.plain, path.plain])
  read_write {d} h := by
    have hrecord : record? Directive.jsonKeys d.toJson = some ⟨_, false⟩ :=
      record?_obj (by simp [Directive.jsonKeys]) (.refl _)
    simp only [Directive.ofJson?, ↓bind_eq_some_iff, Option.some.injEq]
    refine ⟨_, hrecord, _, text.read_field trivial ?_, _, texts.read_field trivial ?_, _,
      text.read_nullable (by simp) (by simp) ?_, _, nat.read_field h.lineNumber ?_, _,
      path.read_field trivial ?_, rfl⟩ <;> simp [str?_eq]
  fits_of_read {j d} h := by
    simp only [Directive.ofJson?, ↓bind_eq_some_iff, Option.some.injEq] at h
    obtain ⟨r, -, name, -, parameters, -, description, -, lineNumber, hnumber, sourceFile,
      -, rfl⟩ := h
    exact ⟨nat.fits_field hnumber⟩

theorem directiveGroup : Codec DirectiveGroup.toJson DirectiveGroup.ofJson?
    fun g => ∀ d ∈ g.directives, d.Fits where
  plain g := .obj (by simp [text.plain, directive.list.plain])
  read_write {g} h := by
    have hrecord : record? ["name", "directives"] g.toJson = some ⟨_, false⟩ :=
      record?_obj (by simp) (.refl _)
    simp only [DirectiveGroup.ofJson?, ↓bind_eq_some_iff, Option.some.injEq]
    refine ⟨_, hrecord, _, text.read_field trivial ?_, _, directive.list.read_field h ?_,
      rfl⟩ <;> simp
  fits_of_read {j g} h := by
    simp only [DirectiveGroup.ofJson?, ↓bind_eq_some_iff, Option.some.injEq] at h
    obtain ⟨r, -, name, -, directives, hdirectives, rfl⟩ := h
    exact directive.list.fits_field hdirectives

theorem directiveIndex : Codec DirectiveIndex.toJson DirectiveIndex.ofJson?
    fun index => ∀ g ∈ index.groups, ∀ d ∈ g.directives, d.Fits where
  plain index := directiveGroup.list.plain index.groups
  read_write {index} h := by
    rw [DirectiveIndex.ofJson?, DirectiveIndex.toJson, directiveGroup.list.read_write h,
      Option.map_some]
  fits_of_read {j index} h := by
    obtain ⟨groups, hgroups, rfl⟩ := Option.map_eq_some_iff.mp h
    exact directiveGroup.list.fits_of_read hgroups

theorem symbol : Codec Symbol.toJson Symbol.ofJson? Symbol.Fits where
  plain s := .obj (by simp [text.plain, nat.plain, nat.map.plain, location.plain, plain_str?])
  read_write {s} h := by
    have hrecord : record? Symbol.jsonKeys s.toJson = some ⟨_, false⟩ :=
      record?_obj (by simp [Symbol.jsonKeys]) (.refl _)
    simp only [Symbol.ofJson?, ↓bind_eq_some_iff, Option.some.injEq]
    refine ⟨_, hrecord, _, text.read_field trivial ?_, _, nat.read_field h.arity ?_, _,
      text.read_field trivial ?_, _, nat.map.read_field h.arguments ?_, _,
      location.read_field h.location ?_, _, text.read_nullable (by simp) (by simp) ?_, _,
      nat.read_field h.occurrenceCount ?_, rfl⟩ <;> simp [str?_eq]
  fits_of_read {j s} h := by
    simp only [Symbol.ofJson?, ↓bind_eq_some_iff, Option.some.injEq] at h
    obtain ⟨r, -, name, -, arity, harity, signature, -, arguments, harguments, place, hplace,
      documentation, -, count, hcount, rfl⟩ := h
    exact ⟨nat.fits_field harity, nat.map.fits_field harguments, location.fits_field hplace,
      nat.fits_field hcount⟩

theorem var : Codec Variable.toJson Variable.ofJson? Variable.Fits where
  plain v := .obj (by simp [text.plain, location.plain, location.list.plain, plain_str?])
  read_write {v} h := by
    have hrecord : record? ["name", "location", "documentation", "occurrences"] v.toJson =
        some ⟨_, false⟩ := record?_obj (by simp) (.refl _)
    simp only [Variable.ofJson?, ↓bind_eq_some_iff, Option.some.injEq]
    refine ⟨_, hrecord, _, text.read_field trivial ?_, _, location.read_field h.location ?_, _,
      text.read_nullable (by simp) (by simp) ?_, _,
      location.list.read_field h.occurrences ?_, rfl⟩ <;> simp [str?_eq]
  fits_of_read {j v} h := by
    simp only [Variable.ofJson?, ↓bind_eq_some_iff, Option.some.injEq] at h
    obtain ⟨r, -, name, -, place, hplace, documentation, -, occurrences, hoccurrences, rfl⟩ := h
    exact ⟨location.fits_field hplace, location.list.fits_field hoccurrences⟩

/-- An empty qualifier is left out and read as empty. -/
theorem read_qualifier {r : Record} {qualifier : String}
    (h : r.get? "prefix" = (if qualifier.isEmpty then none else some qualifier).map str) :
    r.defaulted "prefix" "" Json.text? = some qualifier := by
  refine text.read_defaulted trivial ?_
  split_ifs at h with hempty
  · exact .inr ⟨h, String.isEmpty_iff.mp hempty⟩
  · exact .inl h

theorem statement : Codec Statement.toJson Statement.ofJson? Statement.Fits where
  plain s := by
    have hheading : Plain ((s.heading.map Directive.toJson).getD null) :=
      (directive.nullable fun d => by simp [Directive.toJson]).plain s.heading
    refine .obj ?_
    simp only [List.forall_mem_append]
    refine ⟨⟨⟨?_, text.plain_present _ _⟩, text.plain_present _ _⟩, nat.plain_present _ _⟩
    simp [kind.plain, text.plain, symbol.list.plain, texts.plain, hheading,
      location.plain, path.plain]
  read_write {s} h := by
    have hrecord : record? Statement.jsonKeys s.toJson = some ⟨_, false⟩ :=
      record?_obj (by simp [Statement.jsonKeys]) <| by
        simp only [List.map_append]
        exact (((List.Sublist.refl _).append (keys_present _ _ _)).append
          (keys_present _ _ _)).append (keys_present _ _ _)
    simp only [Statement.ofJson?, ↓bind_eq_some_iff, Option.some.injEq]
    refine ⟨_, hrecord, _, kind.read_field trivial ?_, _, text.read_field trivial ?_, _,
      symbol.list.read_field h.defines ?_, _, symbol.list.read_field h.dependsOn ?_, _,
      texts.read_field trivial ?_, _,
      directive.read_nullable (fun d => by simp [Directive.toJson]) h.heading ?_, _,
      location.read_field h.location ?_, _, path.read_field trivial ?_, _, read_qualifier ?_, _,
      text.read_present (by simp) (by simp) ?_, _,
      nat.read_present (by simp [Json.nat]) h.number ?_, rfl⟩ <;> simp
  fits_of_read {j s} h := by
    simp only [Statement.ofJson?, ↓bind_eq_some_iff, Option.some.injEq] at h
    obtain ⟨r, -, kind, -, identity, -, defines, hdefines, dependsOn, hdepends,
      comments, -, heading,
      hheading, place, hplace, sourceFile, -, qualifier, -, source, -, number, hnumber, rfl⟩ := h
    have hcodec := nat.nullable fun n => by simp [Json.nat]
    exact ⟨symbol.list.fits_field hdefines, symbol.list.fits_field hdepends,
      directive.fits_nullable hheading, location.fits_field hplace,
      hcodec.fits_defaulted (by simp) hnumber⟩

end Json.Codec
end AspAtlas
