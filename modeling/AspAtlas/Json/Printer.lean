import AspAtlas.Json.Basic
/-!
Writing JSON. Texts escape the quote, the backslash and control characters below U+0020, and nothing
else. The compact form has no blanks; the pretty form indents by two and keeps empty lists and
objects on one line.
-/
namespace AspAtlas.Json

/-- A digit below sixteen, in lower case. -/
def hexDigit (n : Nat) : Char := Char.ofNat (if n < 10 then 48 + n else 87 + n)

/-- A character inside a quoted text. -/
def escapeChar (c : Char) : List Char :=
  if c = '"' then ['\\', '"']
  else if c = '\\' then ['\\', '\\']
  else if c = '\n' then ['\\', 'n']
  else if c = '\r' then ['\\', 'r']
  else if c = '\t' then ['\\', 't']
  else if c.toNat = 8 then ['\\', 'b']
  else if c.toNat = 12 then ['\\', 'f']
  else if c.toNat < 32 then ['\\', 'u', '0', '0', hexDigit (c.toNat / 16), hexDigit (c.toNat % 16)]
  else [c]

/-- The characters of a quoted text, with its quotes. -/
def quotedChars (cs : List Char) : List Char := '"' :: (cs.flatMap escapeChar ++ ['"'])

/-- A quoted text. -/
def quoted (text : String) : String := String.ofList (quotedChars text.toList)

/-- How values are laid out. -/
inductive Layout where
  | compact
  | pretty
deriving DecidableEq, Repr

/-- A line break with the indentation of a depth; nothing in the compact form. -/
def Layout.break (layout : Layout) (depth : Nat) : String :=
  match layout with
  | compact => ""
  | pretty => "\n" ++ String.ofList (List.replicate (2 * depth) ' ')

/-- What stands between a key and its value. -/
def Layout.colon : Layout → String
  | compact => ":"
  | pretty => ": "

mutual

/-- A value at a depth of nesting. -/
def write (layout : Layout) (depth : Nat) : Json → String
  | null => "null"
  | bool true => "true"
  | bool false => "false"
  | int value => toString value
  | decimal spelling => spelling
  | str text => quoted text
  | arr [] => "[]"
  | arr (item :: rest) =>
    "[" ++ layout.break (depth + 1) ++ write layout (depth + 1) item
      ++ writeItems layout (depth + 1) rest ++ layout.break depth ++ "]"
  | garbled => "\"\\ud800\""
  | obj [] => "\x7b\x7d"
  | obj ((key, item) :: rest) =>
    "\x7b" ++ layout.break (depth + 1) ++ quoted key ++ layout.colon
      ++ write layout (depth + 1) item ++ writeMembers layout (depth + 1) rest
      ++ layout.break depth ++ "\x7d"

/-- Further items, each after a comma. -/
def writeItems (layout : Layout) (depth : Nat) : List Json → String
  | [] => ""
  | item :: rest =>
    "," ++ layout.break depth ++ write layout depth item ++ writeItems layout depth rest

/-- Further members, each after a comma. -/
def writeMembers (layout : Layout) (depth : Nat) : List (String × Json) → String
  | [] => ""
  | (key, item) :: rest =>
    "," ++ layout.break depth ++ quoted key ++ layout.colon ++ write layout depth item
      ++ writeMembers layout depth rest

end

/-- The text of a value. -/
def print (layout : Layout) (j : Json) : String := j.write layout 0

end AspAtlas.Json
