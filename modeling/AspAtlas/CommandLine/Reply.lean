import AspAtlas.CommandLine.Help
import AspAtlas.Project.Analysis
import AspAtlas.Project.Settings
/-!
Whole runs of the program. Settings are read before the command is carried out.
-/
namespace AspAtlas.CommandLine

/-- How a run ends. -/
inductive Ending where
  | success
  | failure (message : String)
  | usage (cause : UsageFault)
deriving Repr

/-- The exit code of an ending. -/
def Ending.code : Ending → Nat
  | success => 0
  | failure _ => 1
  | usage _ => 2

/-- What a run prints, how it ends, and the disk after it. -/
structure Reply where
  ending : Ending
  output : String
  disk : Disk

namespace Reply

/-- The reply of a run that prints something and changes nothing. -/
def printed (output : String) (d : Disk) : Reply := ⟨.success, output, d⟩

/-- The reply of a run that fails. -/
def failed (f : Failure) (d : Disk) : Reply := ⟨.failure f.message, "", d⟩

/-- The reply of a run that may have changed the disk, and prints nothing. -/
def ofOutcome {α : Type} (o : Outcome α) : Reply :=
  match o.result with
  | .ok _ => printed "" o.disk
  | .error f => failed f o.disk

end Reply

/-- Prints a graph of the program of a file; a bad kind is noticed first. -/
def printGraph (c : Config) (d : Disk) (file : Path) (kind : String) : Reply :=
  match GraphKind.ofWord kind with
  | .error e => .failed ⟨none, .error e⟩ d
  | .ok kind =>
    match Project.graph c d file kind with
    | .error f => .failed f d
    | .ok text => .printed text d

/-- The reply to a command. -/
def Command.reply (command : Command) (c : Config) (now : Timestamp) (d : Disk) : Reply :=
  match command with
  | .init folder => .ofOutcome (Project.init c (folder.getD d.currentFolder) d)
  | .analyze source output => .ofOutcome (Project.analyze c now source output d)
  | .graph file kind => printGraph c d file kind
  | .check strict => .ofOutcome (Project.check c strict d)

/-- The reply to a request. -/
def Request.reply (r : Request) (now : Timestamp) (d : Disk) : Reply :=
  match r with
  | .version => .printed versionText d
  | .help topic => .printed topic.text d
  | .run settings _ command =>
    match Project.settings d settings with
    | .error e => .failed ⟨none, .error e⟩ d
    | .ok c => command.reply c now d

/-- The reply to some arguments. -/
def reply (args : List String) (now : Timestamp) (d : Disk) : Reply :=
  match Request.ofArguments args with
  | .error cause => ⟨.usage cause, "", d⟩
  | .ok r => r.reply now d

end AspAtlas.CommandLine
