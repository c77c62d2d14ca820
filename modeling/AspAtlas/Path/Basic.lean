/-!
Slash-separated paths. A path keeps its text as spelled, but two paths are the same when they have
the same components: empty parts and inner `.` parts do not count, a leading `.` does. Paths are
ordered component by component, names by their characters.
-/
namespace AspAtlas

/-- One step of a path. -/
inductive Component where
  | root
  | current
  | parent
  | name (text : String)
deriving DecidableEq, Repr, Inhabited

namespace Component

/-- The root comes before `.`, `.` before `..`, and `..` before every name. -/
def rank : Component → Nat
  | root => 0
  | current => 1
  | parent => 2
  | name _ => 3

/-- The name of a named component. -/
def text? : Component → Option String
  | name text => some text
  | _ => none

instance : Ord Component where
  compare := compareLex (compareOn rank) (compareOn fun c => c.text?.getD "")

instance : Std.TransOrd Component :=
  inferInstanceAs (Std.TransCmp (compareLex (compareOn rank) (compareOn fun c => c.text?.getD "")))

instance : Std.LawfulEqOrd Component where
  eq_of_compare {a b} h := by
    have h' : compareLex (compareOn rank) (compareOn fun c => c.text?.getD "") a b = .eq := h
    rw [compareLex_eq_eq] at h'
    obtain ⟨hr, ht⟩ := h'
    have hr : a.rank = b.rank := Std.LawfulEqCmp.eq_of_compare hr
    have ht : a.text?.getD "" = b.text?.getD "" := Std.LawfulEqCmp.eq_of_compare ht
    cases a <;> cases b <;> simp_all [rank, text?]

end Component

/-- A path, as spelled. -/
structure Path where
  text : String
deriving Repr, Inhabited

namespace Path

/-- The parts between slashes. -/
def parts (cs : List Char) : List (List Char) :=
  cs.foldr (fun c parts =>
    if c = '/' then [] :: parts
    else match parts with
      | [] => [[c]]
      | part :: rest => (c :: part) :: rest) [[]]

/-- The component that a part stands for; empty and `.` parts stand for none. -/
def componentOf? (part : List Char) : Option Component :=
  if part = [] ∨ part = ['.'] then none
  else if part = ['.', '.'] then some .parent
  else some (.name (String.ofList part))

/-- The components of a spelled path. -/
def componentsOf (cs : List Char) : List Component :=
  match parts cs with
  | [] => []
  | first :: rest =>
    let body := rest.filterMap componentOf?
    if first = [] ∧ rest ≠ [] then .root :: body
    else if first = ['.'] then .current :: body
    else (componentOf? first).toList ++ body

/-- The components of a path. -/
def components (p : Path) : List Component := componentsOf p.text.toList

/-- Paths are the same when their components are. -/
instance : BEq Path where
  beq p q := p.components == q.components

/-- Paths are ordered by their components. -/
instance : Ord Path where
  compare := compareOn components

instance : Std.TransOrd Path :=
  inferInstanceAs (Std.TransCmp (compareOn components))

/-- Whether a path starts at the root. -/
def isAbsolute (p : Path) : Bool := p.text.toList.head? == some '/'

/-- The file name: the last component, when it is a name. -/
def fileName? (p : Path) : Option String :=
  p.components.getLast?.bind Component.text?

/-- Splits a file name at its last dot. A leading dot does not count, and `..` is no file name. -/
def splitFileName (name : String) : String × Option String :=
  let reversed := name.toList.reverse
  let tail := reversed.takeWhile (· != '.')
  match reversed.drop tail.length with
  | [] => (name, none)
  | [_] => (name, none)
  | _ :: stem => (String.ofList stem.reverse, some (String.ofList tail.reverse))

/-- The part of the file name after its last dot. -/
def extension? (p : Path) : Option String :=
  p.fileName?.bind fun name => (splitFileName name).2

end Path
end AspAtlas
