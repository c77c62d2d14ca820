import AspAtlas.Json.Parser
/-!
The small parts of TOML: blanks, comments, line ends, quoted texts and keys. Readers take what a
text starts with and give the rest.
-/
namespace AspAtlas.Toml

/-- The blanks inside a line. -/
def isSpace (c : Char) : Bool := c == ' ' || c == '\t'

/-- Characters that may stand as they are in comments and quoted texts. -/
def isPlain (c : Char) : Bool := c == '\t' || (decide (0x20 ≤ c.toNat) && c.toNat != 0x7F)

/-- A text without leading blanks. -/
def skipSpace (cs : List Char) : List Char := cs.dropWhile isSpace

/-- The text behind a line feed, which a carriage return may precede. -/
def afterFeed? : List Char → Option (List Char)
  | '\n' :: rest => some rest
  | '\r' :: '\n' :: rest => some rest
  | _ => none

/-- The next line, when nothing but blanks and a comment is left of this one. -/
def lineEnd? (cs : List Char) : Option (List Char) :=
  let rest := match skipSpace cs with
    | '#' :: comment => comment.dropWhile isPlain
    | rest => rest
  if rest.isEmpty then some [] else afterFeed? rest

/-- A text without leading blanks, line ends and comments; the flag tells whether it starts inside a
comment. -/
def skipGaps : Bool → List Char → List Char
  | _, [] => []
  | _, '\n' :: rest => skipGaps false rest
  | _, '\r' :: '\n' :: rest => skipGaps false rest
  | true, c :: rest => if isPlain c then skipGaps true rest else c :: rest
  | false, c :: rest =>
    if c = '#' then skipGaps true rest
    else if isSpace c then skipGaps false rest
    else c :: rest

/-- A text without leading blanks and line ends. -/
def skipLines : List Char → List Char
  | [] => []
  | '\n' :: rest => skipLines rest
  | '\r' :: '\n' :: rest => skipLines rest
  | c :: rest => if isSpace c then skipLines rest else c :: rest

/-- The character of a code in hexadecimal digits. -/
def charOfHex? (digits : List Char) : Option Char := do
  let values ← digits.mapM Json.hexValue?
  let code := values.foldl (fun n v => n * 16 + v) 0
  if code.isValidChar then some (Char.ofNat code) else none

/-- The character of an escape, behind its backslash. -/
def escape? : List Char → Option (Char × List Char)
  | 'b' :: rest => some (Char.ofNat 8, rest)
  | 't' :: rest => some ('\t', rest)
  | 'n' :: rest => some ('\n', rest)
  | 'f' :: rest => some (Char.ofNat 12, rest)
  | 'r' :: rest => some ('\r', rest)
  | '"' :: rest => some ('"', rest)
  | '\\' :: rest => some ('\\', rest)
  | 'u' :: rest =>
    if rest.length < 4 then none else (charOfHex? (rest.take 4)).map fun c => (c, rest.drop 4)
  | 'U' :: rest =>
    if rest.length < 8 then none else (charOfHex? (rest.take 8)).map fun c => (c, rest.drop 8)
  | _ => none

/-- The rest of a text in double quotes, in front of `done` reversed; `n` bounds its length. -/
def quotedTail : Nat → List Char → List Char → Option (String × List Char)
  | 0, _, _ => none
  | n + 1, done, cs =>
    match cs with
    | '"' :: rest => some (String.ofList done.reverse, rest)
    | '\\' :: rest => (escape? rest).bind fun (c, rest) => quotedTail n (c :: done) rest
    | c :: rest => if isPlain c then quotedTail n (c :: done) rest else none
    | [] => none

/-- The rest of a text in single quotes, in front of `done` reversed. -/
def literalTail : List Char → List Char → Option (String × List Char)
  | done, '\'' :: rest => some (String.ofList done.reverse, rest)
  | done, c :: rest => if isPlain c then literalTail (c :: done) rest else none
  | _, [] => none

/-- How many quotes a text starts with, at most five. -/
def quotesAt (quote : Char) (cs : List Char) : Nat := ((cs.take 5).takeWhile (· == quote)).length

/-- The rest of a text over several lines, in front of `done` reversed; `n` bounds its length.
Three quotes end it, and up to two more right before them belong to it. -/
def blockTail (quote : Char) (escapes : Bool) : Nat → List Char → List Char →
    Option (String × List Char)
  | 0, _, _ => none
  | n + 1, done, cs =>
    let quotes := quotesAt quote cs
    if 3 ≤ quotes then
      some (String.ofList (List.replicate (quotes - 3) quote ++ done).reverse, cs.drop quotes)
    else
      match afterFeed? cs with
      | some rest => blockTail quote escapes n ('\n' :: done) rest
      | none =>
        match cs with
        | [] => none
        | c :: rest =>
          if c = '\\' ∧ escapes then
            match afterFeed? (skipSpace rest) with
            | some rest => blockTail quote escapes n done (skipLines rest)
            | none => (escape? rest).bind fun (c, rest) =>
              blockTail quote escapes n (c :: done) rest
          else if isPlain c then blockTail quote escapes n (c :: done) rest
          else none

/-- A text over several lines, behind its opening quotes; a line end
right behind them is dropped. -/
def block? (quote : Char) (escapes : Bool) (cs : List Char) : Option (String × List Char) :=
  blockTail quote escapes (cs.length + 1) [] ((afterFeed? cs).getD cs)

/-- A quoted text in one of the four forms. -/
def quoted? : List Char → Option (String × List Char)
  | '"' :: '"' :: '"' :: rest => block? '"' true rest
  | '\'' :: '\'' :: '\'' :: rest => block? '\'' false rest
  | '"' :: rest => quotedTail (rest.length + 1) [] rest
  | '\'' :: rest => literalTail [] rest
  | _ => none

/-- Characters of keys without quotes. -/
def isBare (c : Char) : Bool := c.isAlphanum || c == '_' || c == '-'

/-- One key. -/
def simpleKey? : List Char → Option (String × List Char)
  | '"' :: rest => quotedTail (rest.length + 1) [] rest
  | '\'' :: rest => literalTail [] rest
  | cs =>
    let used := cs.takeWhile isBare
    if used.isEmpty then none else some (String.ofList used, cs.drop used.length)

/-- Keys with dots between them; `n` bounds their number. -/
def keys? : Nat → List Char → Option (List String × List Char)
  | 0, _ => none
  | n + 1, cs => do
    let (key, rest) ← simpleKey? (skipSpace cs)
    match skipSpace rest with
    | '.' :: rest => (keys? n rest).map fun (keys, rest) => (key :: keys, rest)
    | rest => some ([key], rest)

/-- How deeply values may be nested, and keys may be dotted. -/
def depthLimit : Nat := 79

/-- A key, with the dotted keys before it. -/
def key? (cs : List Char) : Option (List String × String × List Char) := do
  let (keys, rest) ← keys? depthLimit cs
  let last ← keys.getLast?
  some (keys.dropLast, last, rest)

end AspAtlas.Toml
