import AspAtlas.CommandLine.Request
/-!
The texts of help, made from the same flags that are read. Explanations stand in one column.
-/
namespace AspAtlas.CommandLine

/-- The name of the program. -/
def programName : String := "aspdoc"

/-- What the program prints when asked for its version. -/
def versionText : String := programName ++ " 0.1.0\n"

/-- What a command is for. -/
def Verb.about : Verb → String
  | init => "Write a default aspdoc.toml"
  | analyze => "Analyze programs and write JSON reports and DOT graphs"
  | graph => "Print a dependency graph of one program"
  | check => "Check that every program loads and classifies"

/-- What help is for. -/
def helpAbout : String := "Print this message or the help of the given subcommand(s)"

/-- How a flag is written. -/
def Flag.usage (f : Flag) : String :=
  let letter := match f.letter with
    | some c => String.ofList ['-', c, ',', ' ']
    | none => "    "
  let value := match f.use with
    | .value placeholder _ => " <" ++ placeholder ++ ">"
    | _ => ""
  letter ++ "--" ++ f.name ++ value

/-- A titled list, with the explanations in one column. -/
def listing (title : String) (items : List (String × String)) : List String :=
  let width := (items.map fun item => item.1.length).foldl max 0
  ["", title ++ ":"] ++ items.map fun item =>
    "  " ++ item.1 ++ String.ofList (List.replicate (width - item.1.length) ' ') ++ "  " ++ item.2

/-- The explanations of flags. -/
def options (flags : List Flag) : List String :=
  listing "Options" (flags.map fun f => (f.usage, f.about))

/-- The lines of a help text. -/
def Topic.lines : Topic → List String
  | program =>
    ["Documentation and dependency graphs for answer set programs", "",
      "Usage: " ++ programName ++ " [OPTIONS] <COMMAND>"]
      ++ listing "Commands" (Verb.all.map (fun v => (v.word, v.about)) ++ [("help", helpAbout)])
      ++ options programFlags
  | verb .graph =>
    [Verb.graph.about, "", "Usage: " ++ programName ++ " graph [OPTIONS] <FILE>"]
      ++ listing "Arguments" [("<FILE>", "Root program file")] ++ options Verb.graph.flags
  | verb v =>
    [v.about, "", "Usage: " ++ programName ++ " " ++ v.word ++ " [OPTIONS]"] ++ options v.flags
  | help =>
    [helpAbout, "", "Usage: " ++ programName ++ " help [COMMAND]..."]
      ++ listing "Arguments" [("[COMMAND]...", "Print help for the subcommand(s)")]

/-- A help text. -/
def Topic.text (t : Topic) : String := String.join (t.lines.map (· ++ "\n"))

end AspAtlas.CommandLine
