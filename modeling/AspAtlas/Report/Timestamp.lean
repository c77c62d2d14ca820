import AspAtlas.Text.Blank
import AspAtlas.Text.Decimal
/-!
Instants in universal time. They are written as RFC 3339 has it, with as many groups of three
fraction digits as needed. Reading is laxer: blanks may stand before numbers and separators, a blank
may separate date and time, and any offset is accounted for.
-/
namespace AspAtlas

/-- An instant in universal time; a leap second is the second 60. -/
structure Timestamp where
  year : Int
  month : Nat
  day : Nat
  hour : Nat
  minute : Nat
  second : Nat
  nanosecond : Nat
deriving DecidableEq, Repr

namespace Timestamp

/-- The begin of 1970. -/
def epoch : Timestamp := ⟨1970, 1, 1, 0, 0, 0, 0⟩

/-- Whether a year has a 29th of February. -/
def isLeapYear (year : Int) : Bool := year % 4 == 0 && (year % 100 != 0 || year % 400 == 0)

/-- The number of days of a month. -/
def daysIn (year : Int) (month : Nat) : Nat :=
  if month = 2 then if isLeapYear year then 29 else 28
  else if month = 4 ∨ month = 6 ∨ month = 9 ∨ month = 11 then 30
  else 31

/-- The day before a date. -/
def dayBefore (year : Int) (month day : Nat) : Int × Nat × Nat :=
  if 1 < day then (year, month, day - 1)
  else if 1 < month then (year, month - 1, daysIn year (month - 1))
  else (year - 1, 12, 31)

/-- The day after a date. -/
def dayAfter (year : Int) (month day : Nat) : Int × Nat × Nat :=
  if day < daysIn year month then (year, month, day + 1)
  else if month < 12 then (year, month + 1, 1)
  else (year + 1, 1, 1)

/-- The years in which dates can be reckoned. -/
def isKnownYear (year : Int) : Bool := decide (-262143 ≤ year ∧ year ≤ 262142)

/-- Whether a date with a time of day exists. -/
def isValid (t : Timestamp) : Bool :=
  isKnownYear t.year && decide
    (1 ≤ t.month ∧ t.month ≤ 12 ∧ 1 ≤ t.day ∧ t.day ≤ daysIn t.year t.month
    ∧ t.hour < 24 ∧ t.minute < 60 ∧ t.second ≤ 60 ∧ t.nanosecond < 1000000000)

/-- The instant whose local time, some minutes ahead of universal time, is given. -/
def ofLocal? (t : Timestamp) (ahead : Int) : Option Timestamp :=
  let minutes := (t.hour * 60 + t.minute : Nat) - ahead
  let (year, month, day) :=
    if minutes < 0 then dayBefore t.year t.month t.day
    else if 1440 ≤ minutes then dayAfter t.year t.month t.day
    else (t.year, t.month, t.day)
  let rest := (minutes % 1440).toNat
  if isKnownYear year then
    some { t with year, month, day, hour := rest / 60, minute := rest % 60 }
  else none

/-- The instant some nanoseconds after the begin of 1970. -/
def ofUnixNanoseconds (n : Nat) : Timestamp :=
  let seconds := n / 1000000000
  let z := seconds / 86400 + 719468
  let era := z / 146097
  let ofEra := z % 146097
  let yearOfEra := (ofEra - ofEra / 1460 + ofEra / 36524 - ofEra / 146096) / 365
  let ofYear := ofEra - (365 * yearOfEra + yearOfEra / 4 - yearOfEra / 100)
  let shifted := (5 * ofYear + 2) / 153
  let month := if shifted < 10 then shifted + 3 else shifted - 9
  { year := (yearOfEra + era * 400 + (if month ≤ 2 then 1 else 0) : Nat)
    month
    day := ofYear - (153 * shifted + 2) / 5 + 1
    hour := seconds / 3600 % 24
    minute := seconds / 60 % 60
    second := seconds % 60
    nanosecond := n % 1000000000 }

/-- A year; four digits need no sign. -/
def yearText (year : Int) : String :=
  if 0 ≤ year ∧ year ≤ 9999 then Text.padded 4 year.toNat
  else (if year < 0 then "-" else "+") ++ Text.padded 4 year.natAbs

/-- The digits of a fraction of a second, with the point. -/
def fractionText (nanosecond : Nat) : String :=
  if nanosecond = 0 then ""
  else if nanosecond % 1000000 = 0 then "." ++ Text.padded 3 (nanosecond / 1000000)
  else if nanosecond % 1000 = 0 then "." ++ Text.padded 6 (nanosecond / 1000)
  else "." ++ Text.padded 9 nanosecond

/-- An instant, written. -/
def print (t : Timestamp) : String :=
  yearText t.year ++ "-" ++ Text.padded 2 t.month ++ "-" ++ Text.padded 2 t.day ++ "T"
    ++ Text.padded 2 t.hour ++ ":" ++ Text.padded 2 t.minute ++ ":" ++ Text.padded 2 t.second
    ++ fractionText t.nanosecond ++ "Z"

/-- A character after blanks, and the text behind it. -/
def separator? (c : Char) (cs : List Char) : Option (List Char) :=
  match Text.trimStart cs with
  | d :: rest => if d = c then some rest else none
  | [] => none

/-- A number of one or two digits after blanks. -/
def twoDigits? (cs : List Char) : Option (Nat × List Char) := Text.number? 2 (Text.trimStart cs)

/-- A year after blanks; with a sign it may have any number of digits. -/
def year? (cs : List Char) : Option (Int × List Char) :=
  match Text.trimStart cs with
  | '-' :: rest => (Text.number? rest.length rest).map fun (n, rest) => (-(n : Int), rest)
  | '+' :: rest => (Text.number? rest.length rest).map fun (n, rest) => ((n : Int), rest)
  | cs => (Text.number? 4 cs).map fun (n, rest) => ((n : Int), rest)

/-- A fraction of a second, if there is one; digits after the ninth do not count. -/
def fraction? : List Char → Option (Nat × List Char)
  | '.' :: rest =>
    (Text.number? 9 rest).map fun (n, more) =>
      (n * Nat.pow 10 (9 - (rest.length - more.length)), more.dropWhile Char.isDigit)
  | cs => some (0, cs)

/-- Two digits, as a number. -/
def exactlyTwo? : List Char → Option (Nat × List Char)
  | a :: b :: rest => if a.isDigit && b.isDigit then some (Text.natOf [a, b], rest) else none
  | _ => none

/-- The minutes of an offset behind its sign. -/
def offsetMinutes? (cs : List Char) : Option (Nat × List Char) := do
  let (hours, rest) ← exactlyTwo? cs
  let (minutes, rest) ← exactlyTwo? (rest.dropWhile fun c => c == ':' || Text.isBlank c)
  if hours < 24 ∧ minutes < 60 then some (hours * 60 + minutes, rest) else none

/-- The minutes that local time is ahead of universal time. -/
def offset? (cs : List Char) : Option (Int × List Char) :=
  if (cs.take 3).map Char.toUpper = ['U', 'T', 'C'] then some (0, cs.drop 3)
  else
    match cs with
    | 'Z' :: rest | 'z' :: rest => some (0, rest)
    | '+' :: rest => (offsetMinutes? rest).map fun (n, rest) => ((n : Int), rest)
    | '-' :: rest | '\u2212' :: rest =>
      (offsetMinutes? rest).map fun (n, rest) => (-(n : Int), rest)
    | _ => none

/-- A `T` or a blank between date and time. -/
def dateEnd? : List Char → Option (List Char)
  | 'T' :: rest | 't' :: rest | ' ' :: rest => some rest
  | _ => none

/-- The instant that a text stands for. -/
def parse? (text : String) : Option Timestamp := do
  let (year, cs) ← year? text.toList
  let (month, cs) ← twoDigits? (← separator? '-' cs)
  let (day, cs) ← twoDigits? (← separator? '-' cs)
  let (hour, cs) ← twoDigits? (← dateEnd? cs)
  let (minute, cs) ← twoDigits? (← separator? ':' cs)
  let (second, cs) ← twoDigits? (← separator? ':' cs)
  let (nanosecond, cs) ← fraction? cs
  let (ahead, cs) ← offset? (Text.trimStart cs)
  let t : Timestamp := ⟨year, month, day, hour, minute, second, nanosecond⟩
  if (Text.trimStart cs).isEmpty && t.isValid then t.ofLocal? ahead else none

end Timestamp
end AspAtlas
