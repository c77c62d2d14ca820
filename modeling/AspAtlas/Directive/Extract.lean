import AspAtlas.Directive.Index
import AspAtlas.Error
import AspAtlas.Text.Blank
/-!
Finding directives in source lines: a marker, a name of letters, parameters in parentheses, and a
description behind the description marker. Parameters are separated by commas that stand neither in
quotes nor in inner parentheses; quotes are dropped.
-/
namespace AspAtlas

/-- Recognises directives by their marker and the marker before descriptions. -/
structure DirectiveExtractor where
  marker : Char
  descriptionMarker : String
deriving Repr

namespace DirectiveExtractor

/-- The marker `@`, and `->` before descriptions. -/
def default : DirectiveExtractor := ⟨'@', "->"⟩

/-- An extractor for given markers; descriptions need a marker that is not blank. -/
def new (marker : Char) (descriptionMarker : String) : Except Error DirectiveExtractor :=
  if (Text.trim descriptionMarker.toList).isEmpty then .error (.config .blankDescriptionMarker)
  else .ok ⟨marker, descriptionMarker⟩

/-- How far the parameters have been read: the depth of parentheses, whether a quote is open, the
present parameter in reverse, and the finished ones in reverse. -/
structure Scan where
  depth : Nat := 0
  inQuotes : Bool := false
  current : List Char := []
  done : List (List Char) := []

namespace Scan

/-- Adds a character to the present parameter. -/
def push (s : Scan) (c : Char) : Scan := { s with current := c :: s.current }

/-- Finishes the present parameter. -/
def finish (s : Scan) : Scan :=
  { s with current := [], done := Text.trim s.current.reverse :: s.done }

end Scan

/-- The parameters up to the closing parenthesis, and the text after it. -/
def splitFrom (s : Scan) : List Char → Option (List (List Char) × List Char)
  | [] => none
  | c :: rest =>
    if c = '"' then splitFrom { s with inQuotes := !s.inQuotes } rest
    else if s.inQuotes then splitFrom (s.push c) rest
    else if c = '(' then splitFrom { s.push c with depth := s.depth + 1 } rest
    else if c = ')' then
      match s.depth with
      | 0 => some (s.finish.done.reverse, rest)
      | depth + 1 => splitFrom { s.push c with depth } rest
    else if c = ',' ∧ s.depth = 0 then splitFrom s.finish rest
    else splitFrom (s.push c) rest

/-- Splits the text after an opening parenthesis into parameters and
what follows the closing one. -/
def splitParameters (cs : List Char) : Option (List (List Char) × List Char) := splitFrom {} cs

/-- The name of a directive and the text after its opening parenthesis, right behind the marker. -/
def headOf? (cs : List Char) : Option (List Char × List Char) :=
  let cs := Text.trimStart cs
  let name := cs.takeWhile Char.isAlpha
  if name.isEmpty then none
  else
    match Text.trimStart (cs.drop name.length) with
    | '(' :: rest => if rest.contains '\n' then none else some (name, rest)
    | _ => none

/-- The first place in a text where a marker starts a directive. -/
def findHead? (marker : Char) : List Char → Option (List Char × List Char)
  | [] => none
  | c :: rest =>
    if c = marker then
      match headOf? rest with
      | some found => some found
      | none => findHead? marker rest
    else findHead? marker rest

/-- The description in the text after the parameters; a blank one is none. -/
def descriptionOf? (marker : List Char) (tail : List Char) : Option String :=
  match Text.afterLead? marker (Text.trimStart tail) with
  | some text =>
    let text := Text.trim text
    if text.isEmpty then none else some (String.ofList text)
  | none => none

/-- The directive on a line. -/
def parseLine? (e : DirectiveExtractor) (line : String) (lineNumber : Nat) (sourceFile : Path) :
    Option Directive := do
  let (name, rest) ← findHead? e.marker (Text.trim line.toList)
  let (parameters, tail) ← splitParameters rest
  match parameters with
  | [] => none
  | [] :: _ => none
  | parameters =>
    some {
      name := String.ofList name
      parameters := parameters.map String.ofList
      description := descriptionOf? e.descriptionMarker.toList tail
      lineNumber
      sourceFile }

/-- The directives of a file, in line order. -/
def directivesOf (e : DirectiveExtractor) (lines : List String) (sourceFile : Path) :
    List Directive :=
  lines.zipIdx.filterMap fun (line, number) => e.parseLine? line number sourceFile

/-- The index of the directives of a file. -/
def extract (e : DirectiveExtractor) (lines : List String) (sourceFile : Path) : DirectiveIndex :=
  .ofList (e.directivesOf lines sourceFile)

end DirectiveExtractor
end AspAtlas
