import AspAtlas.Digest.Sha256
import AspAtlas.Path.Spelling
import AspAtlas.Reader.FileSystem
import AspAtlas.Surface.Lowering
import AspAtlas.Surface.Program
import AspAtlas.Text.Lines
/-!
Reading programs. The statements of included files stand in place of the include; a file is read at
most once, and it is parsed as a whole before any of its includes is followed.
-/
namespace AspAtlas

/-- The text of one file of a program. -/
structure SourceFile where
  path : Path
  lines : List String
  contentHash : String
deriving Repr

namespace SourceFile

/-- The file of a path and its text. -/
def ofText (path : Path) (text : String) : SourceFile :=
  ⟨path, Text.linesOf text, Sha256.digest text⟩

/-- A line by its one-based number. -/
def line? (f : SourceFile) (number : Nat) : Option String :=
  if number = 0 then none else f.lines[number - 1]?

end SourceFile

/-- A root file with its includes put in place. -/
structure ParsedSource where
  root : Path
  /-- The statements, in reading order. -/
  nodes : List Node
  /-- The root first, then every include when it was reached. -/
  files : List SourceFile

namespace ParsedSource

/-- The file of a path. -/
def file? (s : ParsedSource) (path : Path) : Option SourceFile :=
  s.files.find? fun f => f.path == path

end ParsedSource

/-- The items of a file. -/
def parseItems (file : Path) (text : String) : Except Error (List Surface.Item) :=
  match Surface.parse? text with
  | none => .error (.parse file (.grammar (Grammar.failureOf text)))
  | some statements =>
    match Surface.lowerProgram file statements with
    | .ok items => .ok items
    | .error digits => .error (.parse file (.arity digits))

/-- The path that an include refers to, relative to the including file. -/
def resolveInclude (file : Path) (target : String) : Path :=
  match file.parent? with
  | some parent => parent.join target
  | none => ⟨target⟩

/-- Reads program files up to a size in bytes. -/
structure ProgramReader where
  fileSystem : FileSystem
  maxFileSize : Nat

namespace ProgramReader

/-- The text of a file that is not too large. -/
def content (r : ProgramReader) (path : Path) : Except Error String :=
  match r.fileSystem.read path with
  | .error cause => .error (.io cause)
  | .ok text =>
    if text.utf8ByteSize > r.maxFileSize then .error (.parse path (.tooLarge r.maxFileSize))
    else .ok text

theorem read_of_content {r : ProgramReader} {path : Path} {text : String}
    (h : r.content path = .ok text) : r.fileSystem.read path = .ok text := by
  simp only [content] at h
  split at h
  · cases h
  · rename_i text' hr
    split at h
    · cases h
    · cases h
      exact hr

/-- Follows the items still to do, each with the file that it stands in. -/
def follow (r : ProgramReader) (visited : List (List Component)) (done : ParsedSource) :
    List (Path × Surface.Item) → Except Error ParsedSource
  | [] => .ok { done with nodes := done.nodes.reverse, files := done.files.reverse }
  | (_, .statement node) :: rest => r.follow visited { done with nodes := node :: done.nodes } rest
  | (file, .includes target _) :: rest =>
    let included := resolveInclude file target
    if _ : visited.contains included.components then r.follow visited done rest
    else
      match _ : r.content included with
      | .error cause => .error (.includes file included cause)
      | .ok text =>
        match parseItems included text with
        | .error cause => .error cause
        | .ok items =>
          r.follow (included.components :: visited)
            { done with files := .ofText included text :: done.files }
            (items.map (fun item => (included, item)) ++ rest)
termination_by pending => (r.fileSystem.unread visited, pending.length)
decreasing_by
  · exact Prod.Lex.right _ (Nat.lt_succ_self _)
  · exact Prod.Lex.right _ (Nat.lt_succ_self _)
  · exact Prod.Lex.left _ _
      (FileSystem.unread_cons_lt (read_of_content ‹_›) (Bool.eq_false_iff.2 ‹_›))

/-- Reads a text as the content of a path. -/
def readText (r : ProgramReader) (root : Path) (text : String) : Except Error ParsedSource :=
  match parseItems root text with
  | .error cause => .error cause
  | .ok items =>
    r.follow [root.components] ⟨root, [], [.ofText root text]⟩ (items.map fun item => (root, item))

/-- Reads a file. -/
def load (r : ProgramReader) (path : Path) : Except Error ParsedSource :=
  if r.fileSystem.isFile path then
    match r.content path with
    | .error cause => .error cause
    | .ok text => r.readText path text
  else .error (.sourceNotFound path)

end ProgramReader
end AspAtlas
