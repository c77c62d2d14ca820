import AspAtlas.Disk.Basic
import AspAtlas.Ignore.Rules
import AspAtlas.Text.Lines
/-!
Walking folders under rules. Every folder, and every folder above the start, may have rules in
`.ignore`; inside a repository those in `.gitignore` and in the exclude file count too. Rules of
inner folders come first, and `.ignore` comes before the others. A bad pattern below the start is
passed over, one above it stops the walk.
-/
namespace AspAtlas.Ignore

/-- The rules of one folder. -/
structure Level where
  ignore : Rules
  git : Rules
  exclude : Rules
  /-- Whether the folder is the root of a repository. -/
  isRepository : Bool

/-- The lines of some bytes, up to the first one that is no text. -/
def textLines (bytes : List UInt8) : List (List Char) :=
  let pieces := bytes.foldr (fun (b : UInt8) pieces =>
    if b = 10 then [] :: pieces
    else match pieces with
      | [] => [[b]]
      | piece :: rest => (b :: piece) :: rest) [[]]
  let decoded := pieces.map fun piece => String.fromUTF8? ⟨piece.toArray⟩
  Text.finishLines ((decoded.takeWhile Option.isSome).map fun piece => (piece.getD "").toList)

/-- The rules in a file of patterns, and what is wrong in it. Byte order marks in front do not
count. -/
def rulesOfFile (d : Disk) (folder file : Path) : Rules × List PatternFault :=
  match d.readBytes file with
  | .error _ => (.new folder [], [])
  | .ok bytes =>
    let lines := match textLines bytes.toList with
      | first :: rest => first.dropWhile (· == '\ufeff') :: rest
      | [] => []
    let read := lines.zipIdx.map fun (line, index) =>
      match ruleOf line with
      | .ok rule => (rule, none)
      | .error (glob, cause) => (none, some { file, line := index + 1, glob, cause })
    (.new folder (read.filterMap Prod.fst), read.filterMap Prod.snd)

/-- The rules of a folder, and what is wrong in them. -/
def levelOf (d : Disk) (folder : Path) : Level × List PatternFault :=
  let (ignore, faults) := rulesOfFile d folder (folder.join ".ignore")
  let (git, gitFaults) := rulesOfFile d folder (folder.join ".gitignore")
  let repository := folder.join ".git"
  let (exclude, excludeFaults) :=
    if d.isFolder repository then rulesOfFile d folder (repository.join "info/exclude")
    else (.new folder [], [])
  ({ ignore, git, exclude
     isRepository := d.isPresent repository || d.isPresent (folder.join ".jj") },
    faults ++ gitFaults ++ excludeFaults)

/-- The path of a place. -/
def placePath (place : List String) : Path := ⟨"/" ++ "/".intercalate place⟩

/-- The places above a place, from the inside. -/
def placesAbove (place : List String) : List (List String) :=
  (List.range place.length).reverse.map fun n => place.take n

/-- Elements up to the first one that satisfies `p`, which is the last of them. -/
def takeThrough {α : Type} (p : α → Bool) : List α → List α
  | [] => []
  | x :: rest => if p x then [x] else x :: takeThrough p rest

/-- What a walk goes by: its start, the rules above it, and the configured rules. -/
structure Walk where
  disk : Disk
  start : Path
  /-- Where the start stands. -/
  place : List String
  above : List Level
  configured : Rules

namespace Walk

/-- A path relative to the start, from the place of the start. -/
def absolute (w : Walk) (path : List Char) : List Char :=
  let relative :=
    if w.start == ⟨"."⟩ then path
    else dropLead ['/'] (dropLead (dropDot w.start.text.toList) path)
  ((placePath w.place).join (String.ofList relative)).text.toList

/-- What the rules of folders say about a path; `inner` are those below the start. -/
def verdict (w : Walk) (inner : List Level) (path : Path) (isFolder : Bool) : Verdict :=
  let path := dropDot path.text.toList
  let levels := inner.map (fun l => (l, path)) ++ w.above.map fun l => (l, w.absolute path)
  let first (levels : List (Level × List Char)) (rules : Level → Rules) : Verdict :=
    levels.foldr (fun l v => ((rules l.1).verdict l.2 isFolder).orElse v) .silent
  let inRepository :=
    if levels.any fun l => l.1.isRepository then takeThrough (fun l => l.1.isRepository) levels
    else []
  (first levels Level.ignore).orElse
    ((first inRepository Level.git).orElse (first inRepository Level.exclude))

/-- Whether a path is left out. -/
def skips (w : Walk) (inner : List Level) (path : Path) (isFolder : Bool) : Bool :=
  w.verdict inner path isFolder == .ignored
    || w.configured.verdict path.text.toList isFolder == .ignored

/-- The files below a folder; `n` bounds how deep they stand. -/
def filesBelow (w : Walk) : Nat → List String → Path → List Level → List Path
  | 0, _, _, _ => []
  | n + 1, place, folder, inner =>
    (w.disk.children place).flatMap fun (name, entry) =>
      let path := folder.join name
      match entry with
      | .file _ => if w.skips inner path false then [] else [path]
      | .folder =>
        if w.skips inner path true then []
        else w.filesBelow n (place ++ [name]) path ((levelOf w.disk path).1 :: inner)

/-- All files of a walk. -/
def files (w : Walk) : List Path :=
  w.filesBelow (w.disk.entries.size + 1) w.place w.start [(levelOf w.disk w.start).1]

end Walk

/-- The files at and below a path, except those that rules leave out; the path itself is never left
out. A path `-` stands for no file. -/
def filesAt (d : Disk) (start : Path) (configured : List Rule) : Except WalkCause (List Path) :=
  if start.text = "-" then .ok []
  else
    match d.locate start with
    | .error cause => .error (.io start cause)
    | .ok (.missing _ _) => .error (.io start .notFound)
    | .ok (.file _ _) => .ok [start]
    | .ok (.folder place) =>
      let above := (placesAbove place).map fun p => levelOf d (placePath p)
      match above.reverse.flatMap Prod.snd with
      | [] =>
        .ok (Walk.files ⟨d, start, place, above.map Prod.fst, .new start configured⟩)
      | faults => .error (.patterns faults)

end AspAtlas.Ignore
