import AspAtlas.CommandLine.Reply
import Std.Time.DateTime.Timestamp
/-!
The program. The folders that a run may look into are taken in before it, and the files that it has
changed are written out after it.
-/
namespace AspAtlas

/-- The names that lead to an absolute path from the root. -/
def placeOf (text : String) : List String :=
  Path.components ⟨text⟩ |>.foldl (fun place part =>
    match part with
    | .name name => place ++ [name]
    | .parent => place.dropLast
    | .root | .current => place) []

/-- The absolute path of a place. -/
def placeText (place : List String) : String := "/" ++ "/".intercalate place

/-- Takes in a folder without what is in it, and the files that say what is ignored below it. -/
def takeFolder (place : List String) (d : Disk) : IO Disk := do
  let here := (← IO.currentDir) / placeText place
  unless ← here.isDir do
    return d
  let mut d := d.put place .folder
  for name in [".ignore", ".gitignore", ".git", ".jj"] do
    let path := here / name
    if ← path.isDir then
      d := d.put (place ++ [name]) .folder
    else if ← path.pathExists then
      d := d.put (place ++ [name]) (.file (← IO.FS.readBinFile path))
  return d

/-- The depth at which a tree of folders is taken for an endless one. -/
def depthLimit : Nat := 128

/-- Takes in what stands at a place and below it; devices, and files that cannot be read, are left
out. -/
partial def takeTree (place : List String) (d : Disk) : IO Disk := do
  let here := (← IO.currentDir) / placeText place
  if ← here.isDir then
    let mut d := d.put place .folder
    if place.length < depthLimit then
      for entry in ← here.readDir do
        d ← takeTree (place ++ [entry.fileName]) d
    return d
  else if ← here.pathExists then
    unless (← here.metadata).type == .file do
      return d
    try
      return d.put place (.file (← IO.FS.readBinFile here))
    catch _ => return d
  else return d

/-- Takes in what stands at a path, and the folders above it. -/
def takePath (current : String) (path : Path) (d : Disk) : IO Disk := do
  let place := placeOf ((Path.mk current).join path.text).text
  let mut d := d
  for n in List.range place.length do
    d ← takeFolder (place.take n) d
  takeTree place d

/-- Writes out what a run has changed; gives the paths that were written. -/
def writeChanges (before after : Disk) : IO (List String) := do
  let mut written := []
  for (place, entry) in after.entries.entries do
    let path := placeText place
    match entry, before.entries.get? place with
    | .folder, none => IO.FS.createDirAll path
    | .file bytes, old =>
      let same := match old with
        | some (.file present) => present.data == bytes.data
        | _ => false
      unless same do
        IO.FS.writeBinFile path bytes
        written := written ++ [path]
    | .folder, some _ => pure ()
  return written

/-- The paths outside the current folder that a run may look at. -/
def CommandLine.Command.paths (c : Config) : CommandLine.Command → List Path
  | .init folder => folder.toList
  | .analyze source output => Project.sourcesOf c source ++ output.toList ++ [c.project.docsDir]
  | .graph file _ => [⟨((file.parent?.map Path.text).getD ".")⟩]
  | .check _ => c.project.sourceDirs

/-- The disk that a request is carried out on. -/
def CommandLine.Request.disk (r : CommandLine.Request) : IO Disk := do
  let current := (← IO.currentDir).toString
  let start : Disk := { current := placeOf current }
  let mut d ← takePath current ⟨"."⟩ start
  match r with
  | .run settings _ command =>
    for path in settings.toList do
      d ← takePath current path d
    match Project.settings d settings with
    | .ok c =>
      for path in command.paths c do
        d ← takePath current path d
    | .error _ => pure ()
  | _ => pure ()
  return d

/-- Whether a request asks for a log of what is written. -/
def CommandLine.Request.isVerbose : CommandLine.Request → Bool
  | .run _ verbose _ => verbose
  | _ => false

/-- The present instant. -/
def now : IO Timestamp := do
  let t ← Std.Time.Timestamp.now
  return .ofUnixNanoseconds t.toNanosecondsSinceUnixEpoch.val.toNat

/-- Carries out a request. -/
def CommandLine.Request.perform (r : CommandLine.Request) : IO UInt32 := do
  let before ← r.disk
  let reply := r.reply (← now) before
  IO.print reply.output
  let written ← writeChanges before reply.disk
  if r.isVerbose then
    for path in written do IO.eprintln ("Wrote " ++ path)
  match reply.ending with
  | .failure message => IO.eprintln ("Error: " ++ message)
  | _ => pure ()
  return reply.ending.code.toUInt32

end AspAtlas

/-- Carries out a command line. -/
def main (args : List String) : IO UInt32 := do
  match AspAtlas.CommandLine.Request.ofArguments args with
  | .ok r => r.perform
  | .error cause =>
    IO.eprintln ("error: " ++ cause.message)
    return 2
