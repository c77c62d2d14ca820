/-!
Physical lines. A line ends at a line feed, together with one carriage return right before it; the
last line may go without a terminator, and no empty line follows a final terminator.
-/
namespace AspAtlas.Text

/-- The pieces between line feeds; a text with `n` line feeds has `n + 1` of them. -/
def feedPieces (cs : List Char) : List (List Char) :=
  cs.foldr (fun c pieces =>
    if c = '\n' then [] :: pieces
    else match pieces with
      | [] => [[c]]
      | piece :: rest => (c :: piece) :: rest) [[]]

/-- A terminated line loses the carriage return of its terminator. -/
def dropReturn (line : List Char) : List Char :=
  if line.getLast? = some '\r' then line.dropLast else line

/-- Turns pieces into lines: all but the last are terminated, and an empty last one is no line. -/
def finishLines : List (List Char) → List (List Char)
  | [] => []
  | [last] => if last.isEmpty then [] else [last]
  | piece :: rest => dropReturn piece :: finishLines rest

/-- The lines of a text, without terminators. -/
def lines (cs : List Char) : List (List Char) := finishLines (feedPieces cs)

/-- The lines of a string, without terminators. -/
def linesOf (text : String) : List String := (lines text.toList).map String.ofList

@[simp] theorem feedPieces_nil : feedPieces [] = [[]] := rfl

@[simp] theorem feedPieces_feed (cs : List Char) :
    feedPieces ('\n' :: cs) = [] :: feedPieces cs := by
  simp [feedPieces]

theorem feedPieces_ne_nil (cs : List Char) : feedPieces cs ≠ [] := by
  cases cs with
  | nil => simp
  | cons c cs =>
    simp only [feedPieces, List.foldr_cons]
    split
    · simp
    · split <;> simp

end AspAtlas.Text
