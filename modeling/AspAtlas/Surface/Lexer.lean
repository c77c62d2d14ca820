import AspAtlas.Surface.Token
import AspAtlas.Text.Blank
/-!
Cutting program text into tokens. Blanks and comments separate tokens and are dropped; of the units
that could start at a character the longest is taken.
-/
namespace AspAtlas.Surface

/-- The characters that separate tokens. -/
def isSpace (c : Char) : Bool := c == ' ' || c == '\t' || c == '\r' || c == '\n'

/-- The characters after the first letter of a word. -/
def isWordChar (c : Char) : Bool := c.isAlphanum || c == '_' || c == '\''

/-- The inside and the end of a block comment, and the text after it. -/
def blockComment? : List Char → Option (List Char × List Char)
  | [] => none
  | '*' :: '%' :: rest => some (['*', '%'], rest)
  | c :: rest => (blockComment? rest).map fun (used, after) => (c :: used, after)

/-- A comment, without its first percent sign, and the text after it. A block comment that is never
closed ends with its line, like any other. -/
def comment (cs : List Char) : List Char × List Char :=
  let inLine (c : Char) : Bool := c != '\n' && c != '\r'
  let line := (cs.takeWhile inLine, cs.dropWhile inLine)
  match cs with
  | '*' :: inside =>
    match blockComment? inside with
    | some (used, rest) => ('*' :: used, rest)
    | none => line
  | _ => line

/-- The blank or comment that a text starts with, and the text after it. -/
def gap? : List Char → Option (List Char × List Char)
  | [] => none
  | c :: cs =>
    if isSpace c then some ([c], cs)
    else if c = '%' then
      let (used, rest) := comment cs
      some (c :: used, rest)
    else none

/-- The rest of a quoted text up to its closing quote, and the text after it. A backslash takes the
next character with it. -/
def quotedTail? : List Char → Option (List Char × List Char)
  | [] => none
  | '\\' :: c :: rest => (quotedTail? rest).map fun (used, after) => ('\\' :: c :: used, after)
  | '"' :: rest => some (['"'], rest)
  | c :: rest => (quotedTail? rest).map fun (used, after) => (c :: used, after)

/-- The first entry of a table that a text starts with, and the text after it. -/
def longest? {α : Type} (spelling : α → String) (table : List α) (cs : List Char) :
    Option (α × List Char) :=
  table.findSome? fun entry =>
    (Text.afterLead? (spelling entry).toList cs).map fun rest => (entry, rest)

/-- The word that a text starts with: underscores and a letter, then word characters. Its letter
tells identifiers from variables; an underscore on its own is a variable. -/
def word? (cs : List Char) : Option (Lexeme × List Char × List Char) :=
  let used := cs.takeWhile isWordChar
  let rest := cs.dropWhile isWordChar
  match used.dropWhile (· == '_') with
  | c :: _ =>
    if c.isLower then some (.identifier (String.ofList used), used, rest)
    else if c.isUpper then some (.var (String.ofList used), used, rest)
    else none
  | [] => if used = ['_'] then some (.var "_", used, rest) else none

/-- The number that a text starts with. -/
def number? (cs : List Char) : Option (Lexeme × List Char × List Char) :=
  let used := cs.takeWhile Char.isDigit
  let rest := cs.dropWhile Char.isDigit
  if used = [] then none else some (.number (String.ofList used), used, rest)

/-- The quoted text that a text starts with. -/
def quoted? : List Char → Option (Lexeme × List Char × List Char)
  | '"' :: cs =>
    (quotedTail? cs).map fun (used, rest) =>
      (.quoted (String.ofList ('"' :: used)), '"' :: used, rest)
  | _ => none

/-- The keyword that a text starts with. -/
def keyword? (cs : List Char) : Option (Lexeme × List Char × List Char) :=
  (longest? Keyword.text Keyword.all cs).map fun (word, rest) =>
    (.keyword word, word.text.toList, rest)

/-- The symbol that a text starts with. -/
def punct? (cs : List Char) : Option (Lexeme × List Char × List Char) :=
  (longest? Punct.text Punct.all cs).map fun (symbol, rest) =>
    (.punct symbol, symbol.text.toList, rest)

/-- The lexical unit at the start of a text `c :: cs`, the characters it takes, and the text after
it. -/
def scan (c : Char) (cs : List Char) : Lexeme × List Char × List Char :=
  (word? (c :: cs) <|> number? (c :: cs) <|> quoted? (c :: cs) <|> keyword? (c :: cs)
    <|> punct? (c :: cs)).getD (.stray c, [c], cs)

/-- The position after a piece of text. -/
def advanceBy (p : Position) (used : List Char) : Position := used.foldl Position.advance p

/-- Tokens from a position on, put in front of `done` and reversed. Every step takes a character, so
the length of the text bounds their number. -/
def tokensFrom : Nat → Position → List Char → List Token → List Token
  | 0, p, _, done => (⟨.finish, p, p⟩ :: done).reverse
  | _ + 1, p, [], done => (⟨.finish, p, p⟩ :: done).reverse
  | n + 1, p, c :: cs, done =>
    match gap? (c :: cs) with
    | some (used, rest) => tokensFrom n (advanceBy p used) rest done
    | none =>
      let (lexeme, used, rest) := scan c cs
      let stop := advanceBy p used
      tokensFrom n stop rest (⟨lexeme, p, stop⟩ :: done)

/-- The tokens of a text; the last one is `finish`, at its end. -/
def tokens (cs : List Char) : List Token := tokensFrom cs.length Position.start cs []

end AspAtlas.Surface
