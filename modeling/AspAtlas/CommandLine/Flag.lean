/-!
Flags of a command line. Letters can stand together after one dash; a value follows its flag as an
argument of its own, after an equals sign, or directly after a letter. An argument that looks like a
flag is never a value of its own, and no flag can be given twice.
-/
namespace AspAtlas.CommandLine

/-- Why arguments are not understood. -/
inductive UsageFault where
  | unexpected (arg : String)
  | repeated (flag : String)
  | missingValue (flag : String)
  | emptyValue (name : String)
  | unwantedValue (flag : String)
  | missing (what : String)
deriving DecidableEq, Repr

/-- The wording of a fault. -/
def UsageFault.message : UsageFault → String
  | unexpected arg => s!"unexpected argument '{arg}' found"
  | repeated flag => s!"the argument '--{flag}' cannot be used multiple times"
  | missingValue flag => s!"a value is required for '--{flag}' but none was supplied"
  | emptyValue name => s!"a value is required for '{name}' but none was supplied"
  | unwantedValue flag => s!"unexpected value for '--{flag}' found; no more were expected"
  | missing what => s!"'{what}' was not provided"

/-- What ends the reading of arguments early. -/
inductive Stop where
  | fault (cause : UsageFault)
  | help
  | version
deriving DecidableEq, Repr

/-- What a flag is for. -/
inductive FlagUse where
  | switch
  /-- A value, with the name that it has in help texts. -/
  | value (placeholder : String) (mayBeEmpty : Bool)
  | stop (s : Stop)
deriving DecidableEq, Repr

/-- A flag that a command knows. -/
structure Flag where
  name : String
  letter : Option Char
  use : FlagUse
  about : String

/-- The flags that were given, with their values; that of a switch is empty. -/
abbrev Given := List (String × String)

namespace Given

/-- Whether a flag was given. -/
def has (g : Given) (name : String) : Bool := g.any fun e => e.1 == name

/-- The value that was given with a flag. -/
def value? (g : Given) (name : String) : Option String :=
  (g.find? fun e => e.1 == name).map Prod.snd

end Given

namespace Flag

/-- Whether an argument looks like a flag; a single dash does not. -/
def isLike (arg : String) : Bool :=
  match arg.toList with
  | '-' :: _ :: _ => true
  | _ => false

/-- Notes that a flag was given. -/
def note (f : Flag) (value : String) (g : Given) : Except Stop Given :=
  if g.has f.name then .error (.fault (.repeated f.name))
  else
    match f.use with
    | .value _ false =>
      if value.isEmpty then .error (.fault (.emptyValue f.name)) else .ok ((f.name, value) :: g)
    | _ => .ok ((f.name, value) :: g)

/-- Reads letters that stand together; the last one may wait for its value. -/
def readLetters (flags : List Flag) : List Char → Given → Except Stop (Given × Option Flag)
  | [], g => .ok (g, none)
  | c :: rest, g =>
    match flags.find? fun f => f.letter == some c with
    | none => .error (.fault (.unexpected s!"-{c}"))
    | some f =>
      match f.use with
      | .stop s => .error s
      | .switch =>
        match f.note "" g with
        | .ok g => readLetters flags rest g
        | .error s => .error s
      | .value _ _ =>
        match rest with
        | [] => .ok (g, some f)
        | '=' :: value | value => (f.note (String.ofList value) g).map (·, none)

/-- Reads a spelled-out flag, which may wait for its value. -/
def readName (flags : List Flag) (text : List Char) (g : Given) :
    Except Stop (Given × Option Flag) :=
  let name := String.ofList (text.takeWhile (· != '='))
  let attached := text.dropWhile (· != '=')
  match flags.find? fun f => f.name == name with
  | none => .error (.fault (.unexpected s!"--{name}"))
  | some f =>
    match f.use, attached with
    | .stop s, [] => .error s
    | .switch, [] => (f.note "" g).map (·, none)
    | .value _ _, [] => .ok (g, some f)
    | .value _ _, _ :: value => (f.note (String.ofList value) g).map (·, none)
    | _, _ :: _ => .error (.fault (.unwantedValue name))

/-- Reads an argument that looks like a flag. -/
def read (flags : List Flag) (arg : String) (g : Given) : Except Stop (Given × Option Flag) :=
  match arg.toList with
  | '-' :: '-' :: text => readName flags text g
  | text => readLetters flags text.tail g

/-- Reads flags up to the first argument that is none, or up to `--`; `waiting` is a flag whose
value comes next. Gives the arguments that remain. -/
def readAll (flags : List Flag) :
    List String → Option Flag → Given → Except Stop (Given × List String)
  | [], none, g => .ok (g, [])
  | [], some f, _ => .error (.fault (.missingValue f.name))
  | arg :: rest, some f, g =>
    if isLike arg then .error (.fault (.missingValue f.name))
    else
      match f.note arg g with
      | .ok g => readAll flags rest none g
      | .error s => .error s
  | arg :: rest, none, g =>
    if isLike arg ∧ arg ≠ "--" then
      match read flags arg g with
      | .ok (g, waiting) => readAll flags rest waiting g
      | .error s => .error s
    else .ok (g, arg :: rest)

end Flag
end AspAtlas.CommandLine
