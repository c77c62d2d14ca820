import AspAtlas.Config.Toml
import AspAtlas.Project.Outcome
/-!
Settings on a disk. A missing file of settings stands for the defaults.
-/
namespace AspAtlas

namespace Config

/-- The settings in a file. -/
def load (d : Disk) (p : Path) : Except Error Config :=
  match d.readText p with
  | .ok text => ofToml text
  | .error cause => .error (.io cause)

/-- Writes the settings to a file. -/
def save (c : Config) (d : Disk) (p : Path) : Except Error Disk :=
  match c.toToml with
  | .error e => .error e
  | .ok text =>
    match d.writeText p text with
    | .ok d => .ok d
    | .error cause => .error (.io cause)

/-- The files in which settings are looked for. -/
def usualFiles : List Path := [⟨"Aspdoc.toml"⟩, ⟨"aspdoc.toml"⟩, ⟨".aspdoc.toml"⟩]

/-- The settings in a given file, or in the first of the usual ones. -/
def loadOrDefault (d : Disk) (file : Option Path) : Except Error Config :=
  let candidates := match file with
    | some p => [p]
    | none => usualFiles
  match candidates.find? d.isPresent with
  | some p => load d p
  | none => .ok {}

end Config

namespace Project

/-- The settings of a run, once an analysis can work with them. -/
def settings (d : Disk) (file : Option Path) : Except Error Config :=
  match Config.loadOrDefault d file with
  | .error e => .error e
  | .ok c => c.validate.map fun _ => c

/-- Writes a file of settings into a folder, unless it is there; gives its path. -/
def init (c : Config) (folder : Path) (d : Disk) : Outcome Path :=
  (Outcome.createFolders "" folder d).andThen fun _ d =>
    let p := folder.join "aspdoc.toml"
    if d.isPresent p then .done p d
    else
      match c.save d p with
      | .ok d => .done p d
      | .error e => .failed ⟨none, .error e⟩ d

end Project
end AspAtlas
