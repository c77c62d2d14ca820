import AspAtlas.Config.Basic
import AspAtlas.Ignore.Walk
/-!
Finding the programs of a source folder, in the order of their paths.
-/
namespace AspAtlas.Project

/-- The rules of configured patterns. -/
def configuredRules : List String → Except Error (List Ignore.Rule)
  | [] => .ok []
  | pattern :: rest =>
    match Ignore.ruleOf pattern.toList with
    | .error (glob, cause) => .error (.config (.ignorePattern pattern glob cause))
    | .ok rule => (configuredRules rest).map (rule.toList ++ ·)

/-- The program files at and below a path. -/
def discover (c : Config) (d : Disk) (source : Path) : Except Error (List Path) :=
  match configuredRules c.project.ignorePatterns with
  | .error e => .error e
  | .ok rules =>
    match Ignore.filesAt d source rules with
    | .error cause => .error (.fileSystem cause)
    | .ok files =>
      .ok ((files.filter c.analysis.isProgramFile).mergeSort fun a b => (compare a b).isLE)

end AspAtlas.Project
