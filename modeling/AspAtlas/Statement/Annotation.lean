import AspAtlas.Checked
import AspAtlas.Directive.Index
import AspAtlas.Statement.Basic
import AspAtlas.Text.Blank
/-!
Headings and comments of statements. A statement stands under the last section directive above its
first line. Its comments are the marked lines right above it, blank lines between them allowed, and
a marked text right behind it.
-/
namespace AspAtlas

/-- What is needed to annotate the statements of one file. -/
structure Annotator where
  /-- The section directives, by ascending lines. -/
  sections : List Directive
  lines : List String
  /-- What starts a documentation comment. -/
  commentMarker : String

namespace Annotator

/-- An annotator from the directives and lines of a file. -/
def new (directives : DirectiveIndex) (sectionDirective : String) (lines : List String)
    (commentMarker : String) : Annotator where
  sections := (directives.get sectionDirective).mergeSort
    fun a b => decide (a.lineNumber ≤ b.lineNumber)
  lines
  commentMarker

/-- The last section directive above a one-based line. -/
def headingFor (a : Annotator) (line : Nat) : Option Directive :=
  (a.sections.takeWhile fun d => d.precedes line).getLast?

/-- The last section directive above a one-based line, if no line that is looked at is too large. -/
def headingFor? (a : Annotator) (line : Nat) : Option (Option Directive) :=
  (takeWhile? (fun d => d.precedes? line) a.sections).map List.getLast?

/-- The comment that starts a text, after blanks. -/
def commentOf? (marker : String) (cs : List Char) : Option String :=
  (Text.afterLead? marker.toList (Text.trimStart cs)).map fun rest => String.ofList (Text.trim rest)

/-- Whether a line holds nothing but blanks. -/
def isBlankLine (line : String) : Bool := (Text.trimStart line.toList).isEmpty

/-- Whether the comments above a statement may go on at a line. -/
def continues (marker line : String) : Bool :=
  isBlankLine line || (commentOf? marker line.toList).isSome

/-- The comment on a line that is not blank. -/
def lineComment? (marker line : String) : Option String :=
  if isBlankLine line then none else commentOf? marker line.toList

/-- The comments at the end of some lines, from top to bottom. -/
def commentsAtEnd (marker : String) (lines : List String) : List String :=
  ((lines.reverse.takeWhile (continues marker)).filterMap (lineComment? marker)).reverse

/-- The comments at the end of the lines above a statement. -/
def commentsAbove (a : Annotator) (line : Nat) : List String :=
  commentsAtEnd a.commentMarker (a.lines.take (line - 1))

/-- The comments at the end of the lines above a statement, if there are as many lines as are looked
at. -/
def commentsAbove? (a : Annotator) (line : Nat) : Option (List String) :=
  (firstItems? (min (line - 1) a.lines.length) a.lines).map (commentsAtEnd a.commentMarker)

/-- The comment right behind a position. -/
def commentBehind? (a : Annotator) (p : Position) : Option String :=
  if p.line = 0 then none
  else
    match a.lines[p.line - 1]? with
    | some line => commentOf? a.commentMarker (line.toList.drop (p.column - 1))
    | none => none

/-- The comments of a statement at a location. -/
def commentsFor (a : Annotator) (l : Location) : List String :=
  a.commentsAbove l.line ++ (a.commentBehind? l.stop).toList

/-- The comments of a statement at a location, if all lines that are looked at are there. -/
def commentsFor? (a : Annotator) (l : Location) : Option (List String) :=
  (a.commentsAbove? l.line).map fun above => above ++ (a.commentBehind? l.stop).toList

/-- A statement with its heading and comments. -/
def annotate (a : Annotator) (s : Statement) : Statement :=
  { s with heading := a.headingFor s.location.line, comments := a.commentsFor s.location }

end Annotator
end AspAtlas
