import AspAtlas.Proofs.Program.Agreement
import Mathlib.Data.Option.Basic
/-!
A program depends on its include closure only. Two file systems that agree there, on
what can be read and on its text, give one program, or fail with errors that differ at
most in why a file could not be read.
-/
namespace AspAtlas

open Surface (Item)

/-- Two results are one, or failures with related errors. -/
inductive SameBut {ε α : Type} (R : ε → ε → Prop) : Except ε α → Except ε α → Prop
  | ok (a : α) : SameBut R (.ok a) (.ok a)
  | error {e e' : ε} (h : R e e') : SameBut R (.error e) (.error e')

namespace SameBut

variable {ε α β : Type} {R : ε → ε → Prop} {x y z : Except ε α}

theorem refl (hR : ∀ e, R e e) (x : Except ε α) : SameBut R x x := by
  cases x with
  | ok a => exact .ok a
  | error e => exact .error (hR e)

theorem symm (hR : ∀ e e', R e e' → R e' e) (h : SameBut R x y) : SameBut R y x := by
  cases h with
  | ok a => exact .ok a
  | error h => exact .error (hR _ _ h)

theorem trans (hR : ∀ e e' e'', R e e' → R e' e'' → R e e'') (h : SameBut R x y)
    (h' : SameBut R y z) : SameBut R x z := by
  cases h with
  | ok a => exact h'
  | error h =>
    cases h' with
    | error h' => exact .error (hR _ _ _ h h')

theorem eq (hR : ∀ e e', R e e' → e = e') (h : SameBut R x y) : x = y := by
  cases h with
  | ok a => rfl
  | error h => rw [hR _ _ h]

theorem both (h : SameBut R x y) : (∃ a, x = .ok a ∧ y = .ok a) ∨
    ∃ e e', R e e' ∧ x = .error e ∧ y = .error e' := by
  cases h with
  | ok a => exact .inl ⟨a, rfl, rfl⟩
  | error h => exact .inr ⟨_, _, h, rfl, rfl⟩

theorem ok_iff (h : SameBut R x y) {a : α} : x = .ok a ↔ y = .ok a := by
  cases h <;> simp

theorem mono {R' : ε → ε → Prop} (hR : ∀ e e', R e e' → R' e e') (h : SameBut R x y) :
    SameBut R' x y := by
  cases h with
  | ok a => exact .ok a
  | error h => exact .error (hR _ _ h)

/-- What goes on alike from one value gives results that are alike again. -/
theorem bind {f g : α → Except ε β} (h : SameBut R x y)
    (hfg : ∀ a, x = .ok a → SameBut R (f a) (g a)) : SameBut R (x.bind f) (y.bind g) := by
  cases h with
  | ok a => exact hfg a rfl
  | error h => exact .error h

theorem map (f : α → β) (h : SameBut R x y) : SameBut R (x.map f) (y.map f) := by
  cases h with
  | ok a => exact .ok (f a)
  | error h => exact .error h

end SameBut

/-- Two errors are one, but for why a file could not be read. -/
inductive Error.Alike (R : IoCause → IoCause → Prop) : Error → Error → Prop
  | refl (e : Error) : Alike R e e
  | io {cause cause' : IoCause} (h : R cause cause') : Alike R (.io cause) (.io cause')
  | includes {file included : Path} {e e' : Error} (h : Alike R e e') :
      Alike R (.includes file included e) (.includes file included e')

theorem Error.Alike.eq {e e' : Error} (h : Error.Alike Eq e e') : e = e' := by
  induction h with
  | refl => rfl
  | io h => rw [h]
  | includes _ ih => rw [ih]

/-- Two file systems agree on a program: on whether its root is a file, and on what is read at the
root and in the include closure, but for why something could not be read. -/
structure FileSystem.Agree (R : IoCause → IoCause → Prop) (size : Nat) (root : Path)
    (fs fs' : FileSystem) : Prop where
  isFile : fs.isFile root = fs'.isFile root
  atRoot : SameBut R (fs.read root) (fs'.read root)
  closure : ∀ text, fs.read root = .ok text → ∀ p, (ProgramReader.mk fs size).Closure root text p →
    SameBut R (fs.read p) (fs'.read p)

variable {R : IoCause → IoCause → Prop} {fs fs' : FileSystem} {size : Nat} {root : Path}
    {text : String}

/-- A traversal is one of other files that have the same items. -/
theorem Traverses.congr {itemsOf itemsOf' : Path → List Item} {seen : List (List Component)}
    {file : Path} {items : List Item} {reached : List Inclusion} {nodes : List Node}
    (h : Traverses itemsOf seen file items reached nodes)
    (hsame : ∀ v ∈ reached, itemsOf v.included = itemsOf' v.included) :
    Traverses itemsOf' seen file items reached nodes := by
  induction h with
  | done => exact .done
  | statement _ ih => exact .statement (ih hsame)
  | again hs _ ih => exact .again hs (ih hsame)
  | first hs _ _ ihin ih =>
    rw [List.cons_append, List.forall_mem_cons, List.forall_mem_append] at hsame
    obtain ⟨hfirst, hinner, houter⟩ := hsame
    exact .first hs (hfirst ▸ ihin hinner) (ih houter)

namespace ProgramReader

variable {p : Path} {v : Inclusion}

theorem content_alike (size : Nat) (h : SameBut R (fs.read p) (fs'.read p)) :
    SameBut (Error.Alike R) ((ProgramReader.mk fs size).content p)
      ((ProgramReader.mk fs' size).content p) := by
  obtain ⟨text, hread, hread'⟩ | ⟨cause, cause', hcause, hread, hread'⟩ := h.both
  · simp only [content, hread, hread']
    exact .refl .refl _
  · simp only [content, hread, hread']
    exact .error (.io hcause)

theorem itemsOf_congr (h : SameBut R (fs.read p) (fs'.read p)) :
    (ProgramReader.mk fs size).itemsOf p = (ProgramReader.mk fs' size).itemsOf p := by
  obtain ⟨text, hc, hc'⟩ | ⟨e, e', -, hc, hc'⟩ := (content_alike size h).both
  all_goals simp only [itemsOf, hc, hc']

theorem source?_congr (h : SameBut R (fs.read v.included) (fs'.read v.included)) :
    (ProgramReader.mk fs size).source? v = (ProgramReader.mk fs' size).source? v := by
  obtain ⟨text, hc, hc'⟩ | ⟨e, e', -, hc, hc'⟩ := (content_alike size h).both
  all_goals simp only [source?, hc, hc']

theorem fault?_alike (size : Nat) (h : SameBut R (fs.read v.included) (fs'.read v.included)) :
    Option.Rel (Error.Alike R) ((ProgramReader.mk fs size).fault? v)
      ((ProgramReader.mk fs' size).fault? v) := by
  obtain ⟨text, hc, hc'⟩ | ⟨e, e', he, hc, hc'⟩ := (content_alike size h).both
  · simp only [fault?, hc, hc']
    cases parseItems v.included text with
    | ok items => exact .none
    | error e => exact .some (.refl e)
  · simp only [fault?, hc, hc']
    exact .some (.includes he)

theorem findSome?_fault?_alike (size : Nat) {reached : List Inclusion}
    (h : ∀ v ∈ reached, SameBut R (fs.read v.included) (fs'.read v.included)) :
    Option.Rel (Error.Alike R) (reached.findSome? (ProgramReader.mk fs size).fault?)
      (reached.findSome? (ProgramReader.mk fs' size).fault?) := by
  induction reached with
  | nil => exact .none
  | cons v rest ih =>
    obtain ⟨hv, hrest⟩ := List.forall_mem_cons.mp h
    rw [List.findSome?_cons, List.findSome?_cons]
    have hfault := fault?_alike size hv
    generalize (ProgramReader.mk fs size).fault? v = x at hfault
    generalize (ProgramReader.mk fs' size).fault? v = y at hfault
    cases hfault with
    | some h => exact .some h
    | none => exact ih hrest

/-- Readers that agree on what a traversal reaches follow the includes alike. -/
theorem readText_alike_of_traverses {items : List Item} {reached : List Inclusion}
    {nodes : List Node} (hparse : parseItems root text = .ok items)
    (h : Traverses (ProgramReader.mk fs size).itemsOf [root.components] root items reached nodes)
    (hreads : ∀ v ∈ reached, SameBut R (fs.read v.included) (fs'.read v.included)) :
    SameBut (Error.Alike R) ((ProgramReader.mk fs size).readText root text)
      ((ProgramReader.mk fs' size).readText root text) := by
  have hother : Traverses (ProgramReader.mk fs' size).itemsOf
      [root.components] root items reached nodes :=
    h.congr fun v hv => itemsOf_congr (hreads v hv)
  have hsources : reached.filterMap (ProgramReader.mk fs size).source? =
      reached.filterMap (ProgramReader.mk fs' size).source? :=
    List.filterMap_congr fun v hv => source?_congr (hreads v hv)
  rw [readText_eq hparse h, readText_eq hparse hother, hsources]
  have hfault := findSome?_fault?_alike size hreads
  generalize reached.findSome? (ProgramReader.mk fs size).fault? = x at hfault
  generalize reached.findSome? (ProgramReader.mk fs' size).fault? = y at hfault
  cases hfault with
  | some h => exact .error h
  | none => exact .ok _

theorem readText_alike (h : ∀ p, (ProgramReader.mk fs size).Closure root text p →
    SameBut R (fs.read p) (fs'.read p)) :
    SameBut (Error.Alike R) ((ProgramReader.mk fs size).readText root text)
      ((ProgramReader.mk fs' size).readText root text) := by
  cases hparse : parseItems root text with
  | error e =>
    simp only [readText, hparse]
    exact .error (.refl e)
  | ok items =>
    obtain ⟨reached, nodes, htraverses⟩ := exists_traverses ⟨fs, size⟩ [root.components] root items
    exact readText_alike_of_traverses hparse htraverses fun v hv =>
      h _ (closure_of_reached hparse htraverses v hv)

theorem load_alike (h : FileSystem.Agree R size root fs fs') :
    SameBut (Error.Alike R) ((ProgramReader.mk fs size).load root)
      ((ProgramReader.mk fs' size).load root) := by
  simp only [load, ← h.isFile]
  split
  · obtain ⟨text, hc, hc'⟩ | ⟨e, e', he, hc, hc'⟩ := (content_alike size h.atRoot).both
    · simp only [hc, hc']
      exact readText_alike (h.closure text (read_of_content hc))
    · simp only [hc, hc']
      exact .error he
  · exact .error (.refl _)

/-- What agrees on a closure has the same closure. -/
theorem closure_iff_of_agree (h : FileSystem.Agree R size root fs fs')
    (htext : fs.read root = .ok text) :
    (ProgramReader.mk fs size).Closure root text p ↔
    (ProgramReader.mk fs' size).Closure root text p := by
  have hholds {q : Path} {t : String} (hq : (ProgramReader.mk fs size).Closure root text q) :
      (ProgramReader.mk fs size).Holds root text q t ↔
      (ProgramReader.mk fs' size).Holds root text q t := by
    have hread := (h.closure text htext q hq).ok_iff (a := t)
    constructor
    · rintro (hroot | ⟨hroot, hfound, hsize⟩)
      · exact .root hroot
      · exact .read hroot (hread.mp hfound) hsize
    · rintro (hroot | ⟨hroot, hfound, hsize⟩)
      · exact .root hroot
      · exact .read hroot (hread.mpr hfound) hsize
  constructor
  · intro hp
    induction hp with
    | root => exact .root
    | includes hp ht hparse hi ih => exact .includes ih ((hholds hp).mp ht) hparse hi
  · intro hp
    induction hp with
    | root => exact .root
    | includes _ ht hparse hi ih => exact .includes ih ((hholds ih).mpr ht) hparse hi

end ProgramReader

namespace FileSystem.Agree

theorem refl (hR : ∀ c, R c c) (fs : FileSystem) : Agree R size root fs fs :=
  ⟨rfl, .refl hR _, fun _ _ _ _ => .refl hR _⟩

theorem symm (hR : ∀ c c', R c c' → R c' c) (h : Agree R size root fs fs') :
    Agree R size root fs' fs := by
  refine ⟨h.isFile.symm, h.atRoot.symm hR, fun text htext p hp => ?_⟩
  have hother : fs.read root = .ok text := h.atRoot.ok_iff.mpr htext
  exact (h.closure text hother p ((ProgramReader.closure_iff_of_agree h hother).mpr hp)).symm hR

theorem trans {fs'' : FileSystem} (hR : ∀ c c' c'', R c c' → R c' c'' → R c c'')
    (h : Agree R size root fs fs') (h' : Agree R size root fs' fs'') :
    Agree R size root fs fs'' := by
  refine ⟨h.isFile.trans h'.isFile, h.atRoot.trans hR h'.atRoot, fun text htext p hp => ?_⟩
  have hother : fs'.read root = .ok text := h.atRoot.ok_iff.mp htext
  have hp' := (ProgramReader.closure_iff_of_agree h htext).mp hp
  exact (h.closure text htext p hp).trans hR (h'.closure text hother p hp')

theorem mono {R' : IoCause → IoCause → Prop} (hR : ∀ c c', R c c' → R' c c')
    (h : Agree R size root fs fs') : Agree R' size root fs fs' :=
  ⟨h.isFile, h.atRoot.mono hR, fun text htext p hp => (h.closure text htext p hp).mono hR⟩

end FileSystem.Agree

theorem Program.load_alike {config : AnalysisConfig}
    (h : FileSystem.Agree R config.maxFileSize root fs fs') :
    SameBut (Error.Alike R) (Program.load fs root config) (Program.load fs' root config) :=
  (ProgramReader.load_alike h).bind fun _ _ => .refl .refl _

/-- Everything in the include closure of a program that was loaded is accepted. -/
theorem Program.accepts_of_load {config : AnalysisConfig} {p : Program} {t : String} {q : Path}
    (hfs : fs.ReadsAlike) (h : Program.load fs root config = .ok p)
    (htext : fs.read root = .ok text)
    (hq : (config.reader fs).Closure root text q) (ht : fs.read q = .ok t) :
    ∃ items, parseItems q t = .ok items := by
  obtain ⟨source, hload, -⟩ := exists_source_of_load h
  obtain ⟨-, text', hcontent, hsource⟩ := ProgramReader.load_eq_ok_iff.mp hload
  obtain rfl : text = text' :=
    Except.ok.inj (htext.symm.trans (ProgramReader.read_of_content hcontent))
  obtain ⟨f, hf, hpath⟩ := ProgramReader.exists_file_of_readsAlike hfs hsource hq
  obtain ⟨_, _, hspliced⟩ := ProgramReader.exists_spliced hsource
  obtain ⟨s, items, hs, -, hparse, -⟩ := hspliced.statements f hf
  have hsame : s = t := by
    cases hs with
    | root hroot => exact hfs root q _ t (hroot.symm.trans hpath) htext ht
    | read _ hread _ => exact hfs f.path q s t hpath hread ht
  subst hsame
  exact ⟨_, parseItems_relocate hparse q⟩

end AspAtlas
