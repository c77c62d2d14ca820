import AspAtlas.Error
import AspAtlas.Ordered.Map
import AspAtlas.Path.Spelling
/-!
A tree of folders and files with a current folder, and the operations of a file system on it. A path
is followed step by step: every step but the last has to lead to a folder, and so has the last one
when a slash or a `.` part follows it.
-/
namespace AspAtlas

/-- What stands at a place. -/
inductive Entry where
  | file (bytes : ByteArray)
  | folder
deriving Inhabited

/-- A tree of folders and files. A place is the list of names that lead to it from the root. -/
structure Disk where
  entries : OrderedMap (List String) Entry := .empty
  current : List String := []

namespace Disk

/-- Where the null device stands. -/
def nullDevice : List String := ["dev", "null"]

/-- What stands on every disk: the null device, which holds nothing, in its folder. -/
def standing (place : List String) : Option Entry :=
  if place = nullDevice then some (.file .empty)
  else if place = nullDevice.dropLast then some .folder
  else none

/-- What stands at a place. -/
def found? (d : Disk) (place : List String) : Option Entry :=
  d.entries.get? place <|> standing place

/-- One step along a path. -/
inductive Step where
  | slash
  | stay
  | up
  | down (name : String)
deriving DecidableEq

/-- The step that a part of a path stands for. -/
def Step.ofPart (part : List Char) : Step :=
  if part = [] then slash
  else if part = ['.'] then stay
  else if part = ['.', '.'] then up
  else down (String.ofList part)

/-- What a path leads to. Nothing stands at a missing place, but its folder exists; a closed one was
written with a slash behind it. -/
inductive Target where
  | file (place : List String) (bytes : ByteArray)
  | folder (place : List String)
  | missing (place : List String) (closed : Bool)

/-- The size in bytes up to which a name can be used. -/
def nameLimit : Nat := 255

/-- The size in bytes below which a path can be used. -/
def pathLimit : Nat := 4096

/-- Follows steps from a folder. -/
def walk (d : Disk) (place : List String) : List Step → Except IoCause Target
  | [] => .ok (.folder place)
  | .slash :: rest | .stay :: rest => d.walk place rest
  | .up :: rest => d.walk place.dropLast rest
  | .down name :: rest =>
    if name.utf8ByteSize > nameLimit then .error .nameTooLong
    else
      match d.found? (place ++ [name]) with
      | some .folder => d.walk (place ++ [name]) rest
      | some (.file bytes) =>
        if rest.isEmpty then .ok (.file (place ++ [name]) bytes) else .error .notDirectory
      | none =>
        if rest.all (· == .slash) then .ok (.missing (place ++ [name]) (!rest.isEmpty))
        else .error .notFound

/-- The size of a text in bytes. -/
def byteSize : List Char → Nat
  | [] => 0
  | c :: rest => c.utf8Size + byteSize rest

/-- Follows a path. -/
def locate (d : Disk) (p : Path) : Except IoCause Target :=
  let cs := p.text.toList
  if cs.contains '\x00' then .error .nulInName
  else if cs.isEmpty then .error .notFound
  else if byteSize cs ≥ pathLimit then .error .nameTooLong
  else d.walk (if p.isAbsolute then [] else d.current) ((Path.parts cs).map Step.ofPart)

/-- Whether a path leads to a regular file. A device can be read, but it is none. -/
def isFile (d : Disk) (p : Path) : Bool :=
  match d.locate p with
  | .ok (.file place _) => place != nullDevice
  | _ => false

/-- Whether a path leads to a folder. -/
def isFolder (d : Disk) (p : Path) : Bool :=
  match d.locate p with
  | .ok (.folder _) => true
  | _ => false

/-- Whether a path leads to anything. -/
def isPresent (d : Disk) (p : Path) : Bool :=
  match d.locate p with
  | .ok (.file _ _) | .ok (.folder _) => true
  | _ => false

/-- The bytes of a file. -/
def readBytes (d : Disk) (p : Path) : Except IoCause ByteArray :=
  match d.locate p with
  | .ok (.file _ bytes) => .ok bytes
  | .ok (.folder _) => .error .isDirectory
  | .ok (.missing _ _) => .error .notFound
  | .error cause => .error cause

/-- The text of a file. -/
def readText (d : Disk) (p : Path) : Except IoCause String :=
  match d.readBytes p with
  | .ok bytes =>
    match String.fromUTF8? bytes with
    | some text => .ok text
    | none => .error .notText
  | .error cause => .error cause

/-- The absolute path of the current folder. -/
def currentFolder (d : Disk) : Path := ⟨"/" ++ "/".intercalate d.current⟩

/-- Puts an entry at a place. -/
def put (d : Disk) (place : List String) (e : Entry) : Disk :=
  { d with entries := d.entries.insert place e }

/-- Writes a file, replacing what it held; its folder has to exist. -/
def writeBytes (d : Disk) (p : Path) (bytes : ByteArray) : Except IoCause Disk :=
  match d.locate p with
  | .ok (.file place _) | .ok (.missing place false) => .ok (d.put place (.file bytes))
  | .ok (.folder _) | .ok (.missing _ true) => .error .isDirectory
  | .error cause => .error cause

/-- Writes a file of text. -/
def writeText (d : Disk) (p : Path) (text : String) : Except IoCause Disk :=
  d.writeBytes p text.toUTF8

/-- A path without slashes at its end. -/
def withoutEndSlash (p : Path) : Path :=
  let body := p.text.toList.reverse.dropWhile (· == '/')
  if body.isEmpty then p else ⟨String.ofList body.reverse⟩

/-- Creates a folder; the one that it stands in has to exist. -/
def createFolder (d : Disk) (p : Path) : Except IoCause Disk :=
  match d.locate (withoutEndSlash p) with
  | .ok (.missing place _) => .ok (d.put place .folder)
  | .ok (.file _ _) | .ok (.folder _) => .error .exists
  | .error cause => .error cause

/-- Creates the first of some folders, of which each one is to stand in the next; a folder that is
already there will do. What has been created stays when a later step fails. -/
def createChain (d : Disk) : List Path → Except IoCause Unit × Disk
  | [] => (.ok (), d)
  | p :: above =>
    let finish (d : Disk) : Except IoCause Disk → Except IoCause Unit × Disk
      | .ok d => (.ok (), d)
      | .error cause => (if d.isFolder p then .ok () else .error cause, d)
    match d.createFolder p with
    | .error .notFound =>
      match d.createChain above with
      | (.ok (), d) => finish d (d.createFolder p)
      | failed => failed
    | created => finish d created

/-- A path and the paths above it, up to `n` of them; the empty path is left out. -/
def ancestors : Nat → Path → List Path
  | 0, _ => []
  | n + 1, p =>
    if p.components.isEmpty then []
    else p :: (p.parent?.map (ancestors n)).getD []

/-- Creates a folder with all folders above it that are missing. -/
def createFolders (d : Disk) (p : Path) : Except IoCause Unit × Disk :=
  d.createChain (ancestors (p.components.length + 1) p)

/-- The names in a folder, with what stands there. -/
def children (d : Disk) (place : List String) : List (String × Entry) :=
  d.entries.entries.filterMap fun (key, entry) =>
    match key.getLast? with
    | some name => if key = place ++ [name] then some (name, entry) else none
    | none => none

/-- Removes a file, or a folder with everything in it. -/
def remove (d : Disk) (p : Path) : Except IoCause Disk :=
  let without (place : List String) : Disk :=
    { d with entries := .ofList (d.entries.entries.filter fun e => !place.isPrefixOf e.1) }
  match d.locate p with
  | .ok (.file place _) | .ok (.folder place) => .ok (without place)
  | .ok (.missing _ _) => .error .notFound
  | .error cause => .error cause

/-- The files below the current folder, by their paths from there. -/
def files (d : Disk) : List (String × ByteArray) :=
  d.entries.entries.filterMap fun (key, entry) =>
    match entry with
    | .file bytes =>
      if d.current.isPrefixOf key then some ("/".intercalate (key.drop d.current.length), bytes)
      else none
    | .folder => none

end Disk
end AspAtlas
