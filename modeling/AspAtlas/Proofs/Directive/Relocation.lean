import AspAtlas.Directive.Extract
import AspAtlas.Proofs.Path.Components
import AspAtlas.Statement.Annotation
import Mathlib.Data.List.Basic
/-!
Moving directives to another file. Which directives a text has, how they are grouped and which of
them heads a statement does not depend on the path of the file.
-/
namespace AspAtlas

namespace Directive

/-- The directive, found in another file. -/
def moveTo (file : Path) (d : Directive) : Directive := { d with sourceFile := file }

variable (file : Path) (d : Directive)

@[simp] theorem name_moveTo : (d.moveTo file).name = d.name := rfl

@[simp] theorem subject_moveTo : (d.moveTo file).subject = d.subject := rfl

/-- Directives are the same when nothing but the spelling of their file differs. -/
theorem moveTo_beq_moveTo {p q : Path} (h : p.components = q.components) :
    (d.moveTo p == d.moveTo q) = true := by
  have hpath : (p == q) = true := Path.beq_iff.mpr h
  change instBEqDirective.beq _ _ = true
  simp [instBEqDirective.beq, moveTo, hpath]

end Directive

namespace DirectiveGroup

/-- The group, with its directives in another file. -/
def moveTo (file : Path) (g : DirectiveGroup) : DirectiveGroup :=
  { g with directives := g.directives.map (Directive.moveTo file) }

theorem place_moveTo (file : Path) (d : Directive) (ds : List Directive) :
    place (d.moveTo file) (ds.map (Directive.moveTo file)) =
      (place d ds).map (Directive.moveTo file) := by
  induction ds with
  | nil => rfl
  | cons e rest ih =>
    simp only [List.map_cons, place, Directive.subject_moveTo, ih]
    by_cases h : (e.subject == d.subject) = true
    · rw [if_pos h, if_pos h]
      rfl
    · rw [if_neg h, if_neg h]
      rfl

end DirectiveGroup

namespace DirectiveIndex

/-- The index, with its directives in another file. -/
def moveTo (file : Path) (index : DirectiveIndex) : DirectiveIndex :=
  ⟨index.groups.map (DirectiveGroup.moveTo file)⟩

theorem placeGroup_moveTo (file : Path) (d : Directive) (gs : List DirectiveGroup) :
    placeGroup (d.moveTo file) (gs.map (DirectiveGroup.moveTo file)) =
      (placeGroup d gs).map (DirectiveGroup.moveTo file) := by
  induction gs with
  | nil => rfl
  | cons g rest ih =>
    have hname : (g.moveTo file).name = g.name := rfl
    simp only [List.map_cons, placeGroup, Directive.name_moveTo, hname, ih]
    by_cases h : (g.name == d.name) = true
    · rw [if_pos h, if_pos h, List.map_cons]
      simp only [DirectiveGroup.moveTo, DirectiveGroup.place_moveTo]
    · rw [if_neg h, if_neg h, List.map_cons]

theorem insert_moveTo (file : Path) (index : DirectiveIndex) (d : Directive) :
    (index.moveTo file).insert (d.moveTo file) = (index.insert d).moveTo file := by
  simp only [insert, moveTo, placeGroup_moveTo]

theorem ofList_moveTo (file : Path) (ds : List Directive) :
    ofList (ds.map (Directive.moveTo file)) = (ofList ds).moveTo file := by
  have hfoldl : ∀ index : DirectiveIndex,
      (ds.map (Directive.moveTo file)).foldl insert (index.moveTo file) =
        (ds.foldl insert index).moveTo file := by
    induction ds with
    | nil =>
      intro index
      rfl
    | cons d rest ih =>
      intro index
      rw [List.map_cons, List.foldl_cons, insert_moveTo, ih, List.foldl_cons]
  exact hfoldl {}

theorem get_moveTo (file : Path) (index : DirectiveIndex) (name : String) :
    (index.moveTo file).get name = (index.get name).map (Directive.moveTo file) := by
  obtain ⟨groups⟩ := index
  induction groups with
  | nil => rfl
  | cons g rest ih =>
    simp only [get, moveTo, List.map_cons, List.find?_cons, DirectiveGroup.moveTo] at ih ⊢
    cases h : g.name == name with
    | true => rfl
    | false => exact ih

end DirectiveIndex

namespace DirectiveExtractor

variable (e : DirectiveExtractor) (p q : Path)

theorem parseLine?_moveTo (line : String) (number : Nat) :
    e.parseLine? line number q = (e.parseLine? line number p).map (Directive.moveTo q) := by
  simp only [parseLine?]
  cases findHead? e.marker (Text.trim line.toList) with
  | none => rfl
  | some head =>
    cases h : splitParameters head.2 with
    | none => simp [h]
    | some split =>
      simp only [h, Option.bind_eq_bind, Option.bind_some]
      cases split.1 with
      | nil => rfl
      | cons subject rest => cases subject <;> rfl

/-- A text has the same directives in every file. -/
theorem extract_moveTo (lines : List String) :
    e.extract lines q = (e.extract lines p).moveTo q := by
  have hlist : e.directivesOf lines q = (e.directivesOf lines p).map (Directive.moveTo q) := by
    rw [directivesOf, directivesOf, List.map_filterMap]
    refine List.filterMap_congr fun x _ => ?_
    exact e.parseLine?_moveTo p q x.1 x.2
  rw [extract, hlist, DirectiveIndex.ofList_moveTo, extract]

end DirectiveExtractor

namespace Annotator

theorem headingFor_moveTo (file : Path) (index : DirectiveIndex) (sectionDirective : String)
    (lines : List String) (commentMarker : String) (line : Nat) :
    (new (index.moveTo file) sectionDirective lines commentMarker).headingFor line =
      ((new index sectionDirective lines commentMarker).headingFor line).map
        (Directive.moveTo file) := by
  have hsections : (new (index.moveTo file) sectionDirective lines commentMarker).sections =
      (new index sectionDirective lines commentMarker).sections.map (Directive.moveTo file) := by
    simp only [new, DirectiveIndex.get_moveTo]
    rw [List.map_mergeSort]
    intro a _ b _
    rfl
  rw [headingFor, hsections, List.takeWhile_map, List.getLast?_map]
  rfl

end Annotator
end AspAtlas
