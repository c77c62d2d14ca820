import AspAtlas.Json.Printer
/-!
Writing TOML. A text is written in the plainest form that holds it: in double quotes, in single
quotes, over several lines in either, and only then with escapes. Lists of more than one item take a
line for each.
-/
namespace AspAtlas.Toml

/-- Control characters other than the tab and the line feed. -/
def isControl (c : Char) : Bool :=
  (decide (c.toNat < 32) && c != '\t' && c != '\n') || c.toNat == 127

/-- The longest run of a character in a text. -/
def longestRun (c : Char) (cs : List Char) : Nat :=
  (cs.foldl (fun (run, longest) d =>
    let run := if d = c then run + 1 else 0
    (run, max longest run)) (0, 0)).2

/-- A digit below sixteen, in upper case. -/
def upperHex (n : Nat) : Char := Char.ofNat (if n < 10 then 48 + n else 55 + n)

/-- A character between double quotes; a line feed is kept in a text over several lines. -/
def escapeChar (overLines : Bool) (c : Char) : List Char :=
  if c = '\\' then ['\\', '\\']
  else if c = '\t' then ['\\', 't']
  else if c = '\n' then if overLines then ['\n'] else ['\\', 'n']
  else if c = '\r' then ['\\', 'r']
  else if c.toNat = 8 then ['\\', 'b']
  else if c.toNat = 12 then ['\\', 'f']
  else if isControl c then
    ['\\', 'u', '0', '0', upperHex (c.toNat / 16), upperHex (c.toNat % 16)]
  else [c]

/-- A text between double quotes; after `allowed` quotes in a row the next one is escaped, and
`free` of them may still follow. -/
def escapeText (overLines : Bool) (allowed : Nat) : Nat → List Char → List Char
  | _, [] => []
  | free, '"' :: rest =>
    match free with
    | 0 => '\\' :: '"' :: escapeText overLines allowed allowed rest
    | free + 1 => '"' :: escapeText overLines allowed free rest
  | _, c :: rest => escapeChar overLines c ++ escapeText overLines allowed allowed rest

/-- A text between triple quotes; it starts on a new line when it has several. -/
def block (quote : Char) (cs body : List Char) : List Char :=
  let quotes := [quote, quote, quote]
  quotes ++ (if cs.contains '\n' then ['\n'] else []) ++ body ++ quotes

/-- The characters of a text, written. -/
def quotedChars (cs : List Char) : List Char :=
  let hasControl := cs.any isControl
  let hasFeed := cs.contains '\n'
  let hasBackslash := cs.contains '\\'
  let doubles := longestRun '"' cs
  let singles := longestRun '\'' cs
  if !hasControl && !hasBackslash && doubles == 0 && !hasFeed then
    '"' :: (escapeText false 0 0 cs ++ ['"'])
  else if !hasControl && singles == 0 && !hasFeed then '\'' :: (cs ++ ['\''])
  else if !hasControl && !hasBackslash && doubles ≤ 2 then block '"' cs (escapeText true 2 2 cs)
  else if !hasControl && singles ≤ 2 then block '\'' cs cs
  else if hasFeed then block '"' cs (escapeText true 2 2 cs)
  else '"' :: (escapeText false 0 0 cs ++ ['"'])

/-- A text, written. -/
def quoted (text : String) : String := String.ofList (quotedChars text.toList)

/-- A list of written items. -/
def listOf (items : List String) : String :=
  match items with
  | [] => "[]"
  | [item] => "[" ++ item ++ "]"
  | items => "[\n" ++ String.join (items.map fun item => "    " ++ item ++ ",\n") ++ "]"

/-- A table of written values. -/
def tableOf (name : String) (members : List (String × String)) : String :=
  "[" ++ name ++ "]\n" ++ String.join (members.map fun m => m.1 ++ " = " ++ m.2 ++ "\n")

/-- A document of written tables, with blank lines between them. -/
def documentOf (tables : List String) : String := "\n".intercalate tables

end AspAtlas.Toml
