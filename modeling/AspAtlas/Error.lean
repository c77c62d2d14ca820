import AspAtlas.Grammar.Failure
/-!
What can go wrong, by cause. The wording of every message is in this module; a failure of a whole
run puts what was being done in front of its cause.
-/
namespace AspAtlas

/-- Why the file system refused an operation. -/
inductive IoCause where
  | notFound
  | exists
  | notDirectory
  | isDirectory
  | nameTooLong
  | nulInName
  | notText
deriving DecidableEq, Repr

/-- The wording of a refusal. -/
def IoCause.message : IoCause → String
  | notFound => "No such file or directory (os error 2)"
  | «exists» => "File exists (os error 17)"
  | notDirectory => "Not a directory (os error 20)"
  | isDirectory => "Is a directory (os error 21)"
  | nameTooLong => "File name too long (os error 36)"
  | nulInName => "file name contained an unexpected NUL byte"
  | notText => "stream did not contain valid UTF-8"

/-- Why the text of a file was not accepted. -/
inductive ParseCause where
  | grammar (failure : Grammar.Failure)
  | arity (digits : String)
  | tooLarge (limit : Nat)
deriving DecidableEq, Repr

/-- The wording of a rejected text. -/
def ParseCause.message (file : Path) : ParseCause → String
  | grammar failure => failure.message file
  | arity digits => s!"invalid arity {digits}: number too large to fit in target type"
  | tooLarge limit => s!"file exceeds maximum size limit of {limit} bytes"

/-- Why an ignore pattern is no pattern. -/
inductive PatternCause where
  | unopenedAlternates
  | unclosedAlternates
  | invalidRange (first last : Char)
  | danglingEscape
deriving DecidableEq, Repr

/-- The wording of a bad pattern. -/
def PatternCause.message : PatternCause → String
  | unopenedAlternates =>
    "unopened alternate group; missing '\x7b' (maybe escape '\x7d' with '[\x7d]'?)"
  | unclosedAlternates =>
    "unclosed alternate group; missing '\x7d' (maybe escape '\x7b' with '[\x7b]'?)"
  | invalidRange first last => s!"invalid range; '{first}' > '{last}'"
  | danglingEscape => "dangling '\\'"

/-- Why a configuration was not accepted. -/
inductive ConfigCause where
  | malformed
  | noExtensions
  | blankSetting (key : String)
  | blankMarker
  | blankDescriptionMarker
  | sizeOutOfRange
  | graphKind (name : String)
  /-- The pattern as configured, and as it was read. -/
  | ignorePattern (pattern glob : String) (cause : PatternCause)
deriving DecidableEq, Repr

/-- The wording of a rejected configuration. -/
def ConfigCause.message : ConfigCause → String
  | malformed => "invalid TOML"
  | noExtensions => "analysis.extensions must list at least one extension"
  | blankSetting key => s!"{key} must not be empty"
  | blankMarker => "analysis.directive_marker must be a visible character"
  | blankDescriptionMarker => "directive description marker must not be empty"
  | sizeOutOfRange => "out-of-range value for u64 type"
  | graphKind name => s!"Unsupported graph kind: {name}"
  | ignorePattern pattern glob cause =>
    s!"Invalid ignore pattern '{pattern}': error parsing glob '{glob}': {cause.message}"

/-- A bad pattern in a file of patterns. -/
structure PatternFault where
  file : Path
  /-- The one-based line of the pattern. -/
  line : Nat
  glob : String
  cause : PatternCause
deriving Repr

/-- The wording of a bad pattern in a file. -/
def PatternFault.message (f : PatternFault) : String :=
  s!"{f.file.text}: line {f.line}: error parsing glob '{f.glob}': {f.cause.message}"

/-- Why a folder could not be walked. -/
inductive WalkCause where
  | io (path : Path) (cause : IoCause)
  | patterns (faults : List PatternFault)
deriving Repr

/-- The wording of a failed walk. -/
def WalkCause.message : WalkCause → String
  | io path cause => s!"{path.text}: IO error for operation on {path.text}: {cause.message}"
  | patterns faults => "\n".intercalate (faults.map PatternFault.message)

/-- An error of the library. -/
inductive Error where
  | config (cause : ConfigCause)
  | parse (file : Path) (cause : ParseCause)
  | io (cause : IoCause)
  | serialization
  | fileSystem (cause : WalkCause)
  | sourceNotFound (path : Path)
  | includes (file included : Path) (cause : Error)
  | unclassifiable (location : Location)
deriving Repr

/-- The wording of an error. -/
def Error.message : Error → String
  | config cause => s!"Configuration error: {cause.message}"
  | parse file cause => s!"Parse error in {file.text}: {cause.message file}"
  | io cause => s!"IO error: {cause.message}"
  | serialization => "Serialization error"
  | fileSystem cause => s!"File system error: {cause.message}"
  | sourceNotFound path => s!"Source file not found: {path.text}"
  | includes file included cause =>
    s!"Cannot include {included.text} from {file.text}: {cause.message}"
  | unclassifiable location =>
    s!"Statement at {location.display} neither defines nor depends on any predicate"

/-- Why a run failed. -/
inductive FailureCause where
  | error (cause : Error)
  | io (cause : IoCause)
  | programsFailed (count : Nat)
  | diagnosticsRaised (count : Nat)
deriving Repr

/-- The wording of a cause; one of an input or output error repeats its system text. -/
def FailureCause.message : FailureCause → String
  | error (.io cause) => s!"{(Error.io cause).message}: {cause.message}"
  | error cause => cause.message
  | io cause => cause.message
  | programsFailed count => s!"{count} program(s) failed to load"
  | diagnosticsRaised count => s!"{count} diagnostic(s) raised in strict mode"

/-- A failed run: what was being done, and why it failed. -/
structure Failure where
  context : Option String
  cause : FailureCause
deriving Repr

/-- The wording of a failed run. -/
def Failure.message (f : Failure) : String :=
  match f.context with
  | some context => s!"{context}: {f.cause.message}"
  | none => f.cause.message

end AspAtlas
