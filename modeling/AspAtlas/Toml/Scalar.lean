import AspAtlas.Text.Decimal
import AspAtlas.Toml.Document
import AspAtlas.Toml.Text
/-!
Values of TOML without parts: texts, truth values, numbers, and dates with times. Numbers may have
single underscores between digits; integers fit into 64 bits with a sign, and no real number is too
large for a double.
-/
namespace AspAtlas.Toml

/-- Digits with single underscores between them, in front of `done` reversed and without the
underscores. -/
def digitTail (isDigit : Char → Bool) : List Char → List Char → Option (List Char × List Char)
  | done, [] => some (done.reverse, [])
  | _, ['_'] => none
  | done, '_' :: c :: rest => if isDigit c then digitTail isDigit (c :: done) rest else none
  | done, c :: rest =>
    if isDigit c then digitTail isDigit (c :: done) rest else some (done.reverse, c :: rest)

/-- At least one digit, with single underscores between digits. -/
def digits? (isDigit : Char → Bool) : List Char → Option (List Char × List Char)
  | c :: rest => if isDigit c then digitTail isDigit [c] rest else none
  | [] => none

/-- Digits without a needless leading zero. -/
def wholeDigits? : List Char → Option (List Char × List Char)
  | '0' :: rest => some (['0'], rest)
  | cs => digits? Char.isDigit cs

/-- Whether there is a minus sign, and the text behind an optional sign. -/
def signOf : List Char → Bool × List Char
  | '-' :: rest => (true, rest)
  | '+' :: rest => (false, rest)
  | cs => (false, cs)

/-- A number with its sign, when it fits into 64 bits. -/
def bounded? (negative : Bool) (n : Nat) : Option Int :=
  let value : Int := if negative then -(n : Int) else n
  if -9223372036854775808 ≤ value ∧ value < 9223372036854775808 then some value else none

/-- An integer of a power of two as base, behind its mark. -/
def based? (base : Nat) (isDigit : Char → Bool) (cs : List Char) : Option (Value × List Char) := do
  let (digits, rest) ← digits? isDigit cs
  let values ← digits.mapM Json.hexValue?
  let value ← bounded? false (values.foldl (fun n v => n * base + v) 0)
  some (.integer value, rest)

/-- An integer. -/
def integer? : List Char → Option (Value × List Char)
  | '0' :: 'x' :: rest => based? 16 (fun c => (Json.hexValue? c).isSome) rest
  | '0' :: 'o' :: rest => based? 8 (fun c => decide ('0' ≤ c ∧ c ≤ '7')) rest
  | '0' :: 'b' :: rest => based? 2 (fun c => c == '0' || c == '1') rest
  | cs => do
    let (negative, body) := signOf cs
    let (digits, rest) ← wholeDigits? body
    some (.integer (← bounded? negative (Text.natOf digits)), rest)

/-- The exponent that a text starts with, with its sign. -/
def exponent? : List Char → Option (Int × List Char)
  | e :: rest =>
    if e = 'e' ∨ e = 'E' then
      let (negative, body) := signOf rest
      (digits? Char.isDigit body).map fun (digits, rest) =>
        (if negative then -(Text.natOf digits : Int) else Text.natOf digits, rest)
    else none
  | [] => none

/-- The number halfway between the greatest double and what would be the next one. -/
def overflow : Nat := Nat.pow 2 1024 - Nat.pow 2 970

/-- Whether `m * 10 ^ e` is too large for a double. -/
def isTooLarge (m : Nat) (e : Int) : Bool :=
  if m = 0 then false
  else
    let magnitude := ((toString m).length : Int) + e
    if magnitude < 300 then false
    else if 320 < magnitude then true
    else if 0 ≤ e then decide (overflow ≤ m * Nat.pow 10 e.toNat)
    else decide (overflow * Nat.pow 10 (-e).toNat ≤ m)

/-- A real number; one that is too large for a double is refused unless it is negative. -/
def decimal? (cs : List Char) : Option (Value × List Char) := do
  let (negative, body) := signOf cs
  let (whole, rest) ← wholeDigits? body
  let (fraction, exponent, rest) ← match rest with
    | '.' :: rest => do
      let (fraction, rest) ← digits? Char.isDigit rest
      match rest with
      | 'e' :: _ | 'E' :: _ => (exponent? rest).map fun (e, rest) => (fraction, e, rest)
      | _ => some (fraction, 0, rest)
    | rest => (exponent? rest).map fun (e, rest) => ([], e, rest)
  let m := Text.natOf (whole ++ fraction)
  if !negative && isTooLarge m (exponent - fraction.length) then none
  else
    let sign := if negative then "-" else ""
    some (.real s!"{sign}{m}e{exponent - fraction.length}", rest)

/-- A real number, or one of the special ones. -/
def real? (cs : List Char) : Option (Value × List Char) :=
  decimal? cs <|>
    match (signOf cs).2 with
    | 'i' :: 'n' :: 'f' :: rest => some (.real "inf", rest)
    | 'n' :: 'a' :: 'n' :: rest => some (.real "nan", rest)
    | _ => none

/-- A number of exactly so many digits, in a range. -/
def fixed? (width low high : Nat) (cs : List Char) : Option (Nat × List Char) := do
  let (n, rest) ← Text.number? width cs
  if rest.length + width = cs.length ∧ low ≤ n ∧ n ≤ high then some (n, rest) else none

/-- The text behind a character. -/
def behind? (c : Char) : List Char → Option (List Char)
  | d :: rest => if d = c then some rest else none
  | [] => none

/-- The text behind a date. -/
def date? (cs : List Char) : Option (List Char) := do
  let (year, rest) ← fixed? 4 0 9999 cs
  let (month, rest) ← fixed? 2 1 12 (← behind? '-' rest)
  let leap := year % 4 = 0 ∧ (year % 100 ≠ 0 ∨ year % 400 = 0)
  let days :=
    if month = 2 then if leap then 29 else 28
    else if month = 4 ∨ month = 6 ∨ month = 9 ∨ month = 11 then 30
    else 31
  let (_, rest) ← fixed? 2 1 days (← behind? '-' rest)
  some rest

/-- The text behind a time of day. -/
def time? (cs : List Char) : Option (List Char) := do
  let (_, rest) ← fixed? 2 0 23 cs
  let (_, rest) ← fixed? 2 0 59 (← behind? ':' rest)
  let (_, rest) ← fixed? 2 0 60 (← behind? ':' rest)
  match rest with
  | '.' :: c :: more => if c.isDigit then some (more.dropWhile Char.isDigit) else some rest
  | rest => some rest

/-- The text behind an offset from universal time. -/
def offset? : List Char → Option (List Char)
  | 'Z' :: rest | 'z' :: rest => some rest
  | '+' :: rest | '-' :: rest => do
    let (_, rest) ← fixed? 2 0 23 rest
    let (_, rest) ← fixed? 2 0 59 (← behind? ':' rest)
    some rest
  | cs => some cs

/-- The text behind a date with or without a time, or behind a time. -/
def momentEnd? (cs : List Char) : Option (List Char) :=
  match date? cs with
  | some rest =>
    match rest with
    | d :: more =>
      if d = 'T' ∨ d = 't' ∨ d = ' ' then
        match time? more with
        | some rest => offset? rest
        | none => some rest
      else some rest
    | [] => some []
  | none => time? cs

/-- A date or a time. -/
def moment? (cs : List Char) : Option (Value × List Char) :=
  (momentEnd? cs).map fun rest =>
    (.moment (String.ofList (cs.take (cs.length - rest.length))), rest)

/-- A value without parts. -/
def scalar? (cs : List Char) : Option (Value × List Char) :=
  match cs with
  | 't' :: 'r' :: 'u' :: 'e' :: rest => some (.truth true, rest)
  | 'f' :: 'a' :: 'l' :: 's' :: 'e' :: rest => some (.truth false, rest)
  | '"' :: _ | '\'' :: _ => (quoted? cs).map fun (text, rest) => (.text text, rest)
  | _ => moment? cs <|> real? cs <|> integer? cs

end AspAtlas.Toml
