import AspAtlas.Json.Basic
import AspAtlas.Text.Decimal
/-!
Reading JSON. Only blanks may follow the value, numbers have no leading zeros, and control
characters have to be escaped. A text whose escaped surrogates do not come in pairs is passed over.
-/
namespace AspAtlas.Json

/-- The blanks between values. -/
def isSpace (c : Char) : Bool := c == ' ' || c == '\n' || c == '\t' || c == '\r'

/-- A text without leading blanks. -/
def skip (cs : List Char) : List Char := cs.dropWhile isSpace

/-- The value of a hexadecimal digit. -/
def hexValue? (c : Char) : Option Nat :=
  if '0' ≤ c ∧ c ≤ '9' then some (c.toNat - 48)
  else if 'a' ≤ c ∧ c ≤ 'f' then some (c.toNat - 87)
  else if 'A' ≤ c ∧ c ≤ 'F' then some (c.toNat - 55)
  else none

/-- The value of four hexadecimal digits. -/
def hexUnit? (a b c d : Char) : Option Nat := do
  let a ← hexValue? a
  let b ← hexValue? b
  let c ← hexValue? c
  let d ← hexValue? d
  some (((a * 16 + b) * 16 + c) * 16 + d)

/-- The character that a one-letter escape stands for. -/
def shortEscape? (c : Char) : Option Char :=
  match c with
  | '"' => some '"'
  | '\\' => some '\\'
  | '/' => some '/'
  | 'b' => some (Char.ofNat 8)
  | 'f' => some (Char.ofNat 12)
  | 'n' => some '\n'
  | 'r' => some '\r'
  | 't' => some '\t'
  | _ => none

/-- The inside of a quoted text after its opening quote, in front of `done` and reversed. -/
def stringTail : List Char → List Char → Option (List Char × List Char)
  | _, [] => none
  | done, '"' :: rest => some (done.reverse, rest)
  | done, '\\' :: 'u' :: a :: b :: c :: d :: rest =>
    match hexUnit? a b c d with
    | none => none
    | some unit =>
      if 0xD800 ≤ unit ∧ unit < 0xDC00 then
        match rest with
        | '\\' :: 'u' :: a' :: b' :: c' :: d' :: rest' =>
          match hexUnit? a' b' c' d' with
          | none => none
          | some low =>
            if 0xDC00 ≤ low ∧ low < 0xE000 then
              stringTail (Char.ofNat
                (0x10000 + (unit - 0xD800) * 0x400 + (low - 0xDC00)) :: done) rest'
            else none
        | _ => none
      else if 0xDC00 ≤ unit ∧ unit < 0xE000 then none
      else stringTail (Char.ofNat unit :: done) rest
  | done, '\\' :: c :: rest =>
    match shortEscape? c with
    | some e => stringTail (e :: done) rest
    | none => none
  | done, c :: rest => if c.toNat < 32 || c == '\\' then none else stringTail (c :: done) rest

/-- What stands behind a quoted text, from behind its opening quote. -/
def behindString? : List Char → Option (List Char)
  | [] => none
  | '"' :: rest => some rest
  | '\\' :: 'u' :: a :: b :: c :: d :: rest =>
    if (hexUnit? a b c d).isSome then behindString? rest else none
  | '\\' :: c :: rest => if (shortEscape? c).isSome then behindString? rest else none
  | c :: rest => if c.toNat < 32 || c == '\\' then none else behindString? rest

/-- A quoted text from behind its opening quote, if it stands for one, and what is behind it. -/
def string? (cs : List Char) : Option (Option String × List Char) :=
  match stringTail [] cs with
  | some (text, rest) => some (some (String.ofList text), rest)
  | none => (behindString? cs).map fun rest => (none, rest)

/-- The digits that a text starts with, if any. -/
def digits? (cs : List Char) : Option (List Char × List Char) :=
  let used := cs.takeWhile Char.isDigit
  if used.isEmpty then none else some (used, cs.drop used.length)

/-- The fraction that a text starts with, possibly none. -/
def fraction? : List Char → Option (List Char × List Char)
  | '.' :: rest => (digits? rest).map fun (used, rest) => ('.' :: used, rest)
  | cs => some ([], cs)

/-- The exponent that a text starts with, possibly none. -/
def exponent? : List Char → Option (List Char × List Char)
  | e :: rest =>
    if e = 'e' ∨ e = 'E' then
      match rest with
      | s :: more =>
        if s = '+' ∨ s = '-' then (digits? more).map fun (used, rest) => (e :: s :: used, rest)
        else (digits? rest).map fun (used, rest) => (e :: used, rest)
      | [] => none
    else some ([], e :: rest)
  | [] => some ([], [])

/-- The number that a text starts with; `-0` is a decimal. -/
def number? (cs : List Char) : Option (Json × List Char) := do
  let (negative, body) := match cs with
    | '-' :: rest => (true, rest)
    | _ => (false, cs)
  let (whole, rest) ← digits? body
  if whole.length > 1 && whole.head? == some '0' then none
  else
    let (fraction, rest) ← fraction? rest
    let (exponent, rest) ← exponent? rest
    let value := Text.natOf whole
    if fraction.isEmpty && exponent.isEmpty && !(negative && value == 0) then
      some (int (if negative then -(value : Int) else value), rest)
    else
      let sign := if negative then ['-'] else []
      some (decimal (String.ofList (sign ++ whole ++ fraction ++ exponent)), rest)

/-- A word and the text after it. -/
def word? (word : String) (value : Json) (cs : List Char) : Option (Json × List Char) :=
  let w := word.toList
  if w.isPrefixOf cs then some (value, cs.drop w.length) else none

/-- Items up to a closing bracket, in front of `done` and reversed; `n` bounds their number. -/
def itemsOf (item : List Char → Option (Json × List Char)) :
    Nat → List Json → List Char → Option (Json × List Char)
  | 0, _, _ => none
  | n + 1, done, cs =>
    match item (skip cs) with
    | none => none
    | some (value, rest) =>
      match skip rest with
      | ',' :: rest => itemsOf item n (value :: done) rest
      | ']' :: rest => some (arr (value :: done).reverse, rest)
      | _ => none

/-- Members up to a closing brace, in front of `done` and reversed; `n` bounds their number. There
are none any more once a key could not be read. -/
def membersOf (item : List Char → Option (Json × List Char)) :
    Nat → Option (List (String × Json)) → List Char → Option (Json × List Char)
  | 0, _, _ => none
  | n + 1, done, cs =>
    match skip cs with
    | '"' :: rest =>
      match string? rest with
      | none => none
      | some (key, rest) =>
        match skip rest with
        | ':' :: rest =>
          match item (skip rest) with
          | none => none
          | some (value, rest) =>
            let done := done.bind fun members => key.map fun key => (key, value) :: members
            match skip rest with
            | ',' :: rest => membersOf item n done rest
            | '\x7d' :: rest =>
              some (done.elim garbled fun members => obj members.reverse, rest)
            | _ => none
        | _ => none
    | _ => none

/-- The value that a text starts with; `n` bounds nesting and length. -/
def value? : Nat → List Char → Option (Json × List Char)
  | 0, _ => none
  | n + 1, cs =>
    match cs with
    | [] => none
    | '"' :: rest => (string? rest).map fun (text, rest) => (text.elim garbled str, rest)
    | '[' :: rest =>
      match skip rest with
      | ']' :: rest => some (arr [], rest)
      | _ => itemsOf (value? n) n [] rest
    | '\x7b' :: rest =>
      match skip rest with
      | '\x7d' :: rest => some (obj [], rest)
      | _ => membersOf (value? n) n (some []) rest
    | _ =>
      word? "null" null cs <|> word? "true" (bool true) cs <|> word? "false" (bool false) cs
        <|> number? cs

/-- The value of a whole text. -/
def parse? (text : String) : Option Json :=
  let cs := text.toList
  match value? (cs.length + 1) (skip cs) with
  | some (value, rest) => if (skip rest).isEmpty then some value else none
  | none => none

end AspAtlas.Json
