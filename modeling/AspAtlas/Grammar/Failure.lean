import AspAtlas.Grammar.Rules
/-!
Where and why a text is no program: the farthest position that recognition reached, and the rules
expected there, shown below the line of text in question.
-/
namespace AspAtlas.Grammar

/-- Why a text is no program. -/
structure Failure where
  place : Position
  /-- The line of text in question, as shown. -/
  line : String
  expected : List Rule
deriving Repr, DecidableEq

/-- The line around an offset: the characters before it, and those from it on with the line feed. -/
def lineAround (cs : List Char) (offset : Nat) : List Char × List Char :=
  let before := ((cs.take offset).reverse.takeWhile (· != '\n')).reverse
  let rest := cs.drop offset
  let line := rest.takeWhile (· != '\n')
  (before, line ++ (rest.drop line.length).take 1)

/-- How a line is shown: line ends are dropped, but at a line end they are made visible. -/
def shownLine (before rest : List Char) : String :=
  let line := before ++ rest
  if rest.head? = some '\n' ∨ rest.head? = some '\r' then
    String.ofList (line.map fun c => if c = '\r' then '\u240d'
      else if c = '\n' then '\u240a' else c)
  else String.ofList (line.filter fun c => c != '\r' && c != '\n')

/-- The attempts of recognising a whole text as a program, and whether it is one. -/
def recognizeProgram (cs : List Char) : Bool × Attempts Rule :=
  let budget := 128 * (cs.length + 8)
  let found := recognize definition false budget (.rule .program) ⟨0, cs⟩ ⟨0, []⟩
  (found.1.isSome, found.2)

/-- Why a text is no program. -/
def failureOf (text : String) : Failure :=
  let cs := text.toList
  let attempts := (recognizeProgram cs).2
  let (before, rest) := lineAround cs attempts.offset
  { place := Surface.advanceBy Position.start (cs.take attempts.offset)
    line := shownLine before rest
    expected := Rule.all.filter fun r => attempts.rules.contains r }

/-- A list of alternatives in words. -/
def inWords : List String → String
  | [] => ""
  | [only] => only
  | [first, second] => s!"{first} or {second}"
  | names =>
    ", ".intercalate names.dropLast ++ ", or " ++ (names.getLast?.getD "")

/-- The message that shows a failure in a file. -/
def Failure.message (f : Failure) (file : Path) : String :=
  let number := toString f.place.line
  let margin := String.ofList (List.replicate number.length ' ')
  let lead := (f.line.toList.take (f.place.column - 1)).map fun c => if c = '\t' then '\t' else ' '
  "\n".intercalate
    [s!"{margin}--> {file.text}:{f.place.line}:{f.place.column}",
      s!"{margin} |",
      s!"{number} | {f.line}",
      s!"{margin} | {String.ofList lead}^---",
      s!"{margin} |",
      s!"{margin} = expected {inWords (f.expected.map Rule.name)}"]

end AspAtlas.Grammar
