import AspAtlas.CommandLine.Flag
import AspAtlas.Path.Basic
/-!
What a command line asks for. Flags of the program stand before the command, those of a command
behind it; after `--` no argument is a flag.
-/
namespace AspAtlas.CommandLine

/-- The commands. -/
inductive Verb where
  | init
  | analyze
  | graph
  | check
deriving DecidableEq, Repr

/-- What help is asked about. -/
inductive Topic where
  | program
  | verb (v : Verb)
  | help
deriving DecidableEq, Repr

/-- A command with its arguments. -/
inductive Command where
  | init (folder : Option Path)
  | analyze (source output : Option Path)
  | graph (file : Path) (kind : String)
  | check (strict : Bool)
deriving Repr

/-- What a command line asks for. -/
inductive Request where
  | run (settings : Option Path) (verbose : Bool) (command : Command)
  | version
  | help (topic : Topic)
deriving Repr

namespace Verb

/-- All commands, as they are listed. -/
def all : List Verb := [init, analyze, graph, check]

/-- The word for a command. -/
def word : Verb → String
  | init => "init"
  | analyze => "analyze"
  | graph => "graph"
  | check => "check"

/-- The command for a word. -/
def ofWord? (word : String) : Option Verb := all.find? fun v => v.word == word

end Verb

/-- A flag whose value is a path. -/
def pathFlag (name : String) (letter : Char) (placeholder about : String) : Flag :=
  ⟨name, some letter, .value placeholder false, about⟩

/-- The flag that every part of a command line knows. -/
def helpFlag : Flag := ⟨"help", some 'h', .stop .help, "Print help"⟩

/-- The flags of the program. -/
def programFlags : List Flag :=
  [pathFlag "config" 'c' "CONFIG" "Path to configuration file",
    ⟨"verbose", some 'v', .switch, "Enable verbose logging"⟩, helpFlag,
    ⟨"version", some 'V', .stop .version, "Print version"⟩]

/-- The kind of graph that is drawn when none is given. -/
def usualKind : String := "statement"

/-- The flags of a command. -/
def Verb.flags : Verb → List Flag
  | init =>
    [pathFlag "path" 'p' "PATH" "Target directory (defaults to current directory)", helpFlag]
  | analyze =>
    [pathFlag "source" 's' "SOURCE" "Source directory to analyze",
      pathFlag "output" 'o' "OUTPUT" "Output directory for reports", helpFlag]
  | graph =>
    [⟨"kind", some 'k', .value "KIND" true,
      "Graph to print (statement, definition) [default: " ++ usualKind ++ "]"⟩, helpFlag]
  | check => [⟨"strict", none, .switch, "Fail on diagnostics as well as load errors"⟩, helpFlag]

/-- Accepts that no arguments remain. -/
def nothingLeft : List String → Except Stop Unit
  | [] | ["--"] => .ok ()
  | "--" :: arg :: _ | arg :: _ => .error (.fault (.unexpected arg))

/-- Reads flags when nothing may come after them. -/
def onlyFlags (flags : List Flag) (args : List String) (g : Given) : Except Stop Given :=
  match Flag.readAll flags args none g with
  | .error s => .error s
  | .ok (g, rest) => (nothingLeft rest).map fun _ => g

/-- The file that a graph is asked of, and the flags before and after it. -/
def fileAndFlags (flags : List Flag) (args : List String) : Except Stop (String × Given) :=
  match Flag.readAll flags args none [] with
  | .error s => .error s
  | .ok (_, []) | .ok (_, ["--"]) => .error (.fault (.missing "<FILE>"))
  | .ok (g, ["--", file]) => .ok (file, g)
  | .ok (_, "--" :: _ :: arg :: _) => .error (.fault (.unexpected arg))
  | .ok (g, file :: rest) => (onlyFlags flags rest g).map fun g => (file, g)

/-- A path that was given with a flag. -/
def Given.path? (g : Given) (name : String) : Option Path := (g.value? name).map Path.mk

/-- Reads the arguments of a command. -/
def Command.ofArguments (v : Verb) (args : List String) : Except Stop Command :=
  match v with
  | .init => (onlyFlags v.flags args []).map fun g => .init (g.path? "path")
  | .analyze =>
    (onlyFlags v.flags args []).map fun g => .analyze (g.path? "source") (g.path? "output")
  | .check => (onlyFlags v.flags args []).map fun g => .check (g.has "strict")
  | .graph =>
    match fileAndFlags v.flags args with
    | .error s => .error s
    | .ok (file, g) =>
      if file.isEmpty then .error (.fault (.emptyValue "<FILE>"))
      else .ok (.graph ⟨file⟩ ((g.value? "kind").getD usualKind))

/-- What is printed when the reading of arguments about a topic ends early. -/
def Request.ofStop (topic : Topic) : Stop → Except UsageFault Request
  | .fault cause => .error cause
  | .help => .ok (.help topic)
  | .version => .ok .version

/-- The topic that help is asked about. -/
def Topic.ofArguments : List String → Except UsageFault Topic
  | [] => .ok .program
  | word :: rest =>
    match if word = "help" then some .help else (Verb.ofWord? word).map .verb with
    | none => .error (.unexpected word)
    | some topic =>
      match rest with
      | [] => .ok topic
      | arg :: _ => .error (.unexpected arg)

/-- What some arguments ask for. -/
def Request.ofArguments (args : List String) : Except UsageFault Request :=
  match Flag.readAll programFlags args none [] with
  | .error s => ofStop .program s
  | .ok (_, []) => .error (.missing "<COMMAND>")
  | .ok (g, word :: rest) =>
    if word = "help" then (Topic.ofArguments rest).map .help
    else
      match Verb.ofWord? word with
      | none => .error (.unexpected word)
      | some v =>
        match Command.ofArguments v rest with
        | .error s => ofStop (.verb v) s
        | .ok command => .ok (.run (g.path? "config") (g.has "verbose") command)

end AspAtlas.CommandLine
