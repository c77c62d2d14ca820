import AspAtlas.Disk.Basic
/-!
Runs that change a disk. What has been written stays when a later step fails.
-/
namespace AspAtlas

/-- What came out of a run, and the disk after it. -/
structure Outcome (α : Type) where
  result : Except Failure α
  disk : Disk

namespace Outcome

variable {α β : Type}

/-- A run that changes nothing. -/
def done (a : α) (d : Disk) : Outcome α := ⟨.ok a, d⟩

/-- A run that fails. -/
def failed (f : Failure) (d : Disk) : Outcome α := ⟨.error f, d⟩

/-- One run after another; a failure ends both. -/
def andThen (o : Outcome α) (next : α → Disk → Outcome β) : Outcome β :=
  match o.result with
  | .ok a => next a o.disk
  | .error f => failed f o.disk

/-- Writes a text to a file. -/
def write (p : Path) (text : String) (d : Disk) : Outcome Unit :=
  match d.writeText p text with
  | .ok d => done () d
  | .error cause => failed ⟨some s!"Cannot write {p.text}", .io cause⟩ d

/-- Creates a folder with all folders above it. -/
def createFolders (what : String) (p : Path) (d : Disk) : Outcome Unit :=
  match d.createFolders p with
  | (.ok (), d) => done () d
  | (.error cause, d) => failed ⟨some s!"Cannot create {what}{p.text}", .io cause⟩ d

end Outcome
end AspAtlas
