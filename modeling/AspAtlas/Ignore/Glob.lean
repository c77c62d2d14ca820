import AspAtlas.Error
/-!
Glob patterns of paths: `?` and `*` inside a name, `**` across names, classes in brackets, and
alternatives in braces. A bracket that is never closed stands for itself. Matching goes byte by
byte, so `?` takes one byte, and a class takes the bytes of its characters.
-/
namespace AspAtlas.Ignore

/-- A part of a glob pattern. -/
inductive Token where
  | literal (c : Char)
  /-- `?`: a byte other than a slash. -/
  | any
  /-- `*`: bytes other than slashes. -/
  | run
  /-- A leading `**/`: nothing, or anything up to a slash. -/
  | leading
  /-- A final `/**`: a slash and anything. -/
  | trailing
  /-- `/**/`: a slash, or anything between two slashes. -/
  | between
  | oneOf (negated : Bool) (ranges : List (Char × Char))
  | alternates (branches : List (List Token))
deriving Repr, Inhabited

/-! ### Reading -/

/-- How far a class has been read: its ranges in reverse, and whether a range is open. -/
structure ClassScan where
  ranges : List (Char × Char) := []
  inRange : Bool := false

/-- The class after one more character. -/
def ClassScan.add (s : ClassScan) (c : Char) : Except PatternCause ClassScan :=
  match s.inRange, s.ranges with
  | true, (first, _) :: rest =>
    if c < first then .error (.invalidRange first c) else .ok ⟨(first, c) :: rest, false⟩
  | _, ranges => .ok ⟨(c, c) :: ranges, false⟩

/-- The ranges of a class and the text behind its bracket; none when no bracket closes it. -/
def classTail (s : ClassScan) :
    List Char → Except PatternCause (Option (List (Char × Char) × List Char))
  | [] => .ok none
  | c :: rest =>
    if c = ']' ∧ s.ranges ≠ [] then
      .ok (some ((if s.inRange then ('-', '-') :: s.ranges else s.ranges).reverse, rest))
    else if c = '-' ∧ s.ranges ≠ [] ∧ !s.inRange then classTail { s with inRange := true } rest
    else
      match s.add c with
      | .ok s => classTail s rest
      | .error cause => .error cause

/-- A class behind its opening bracket. -/
def class? : List Char → Except PatternCause (Option (Token × List Char))
  | c :: rest =>
    let negated := c = '!' || c = '^'
    (classTail {} (if negated then rest else c :: rest)).map fun found =>
      found.map fun (ranges, rest) => (.oneOf negated ranges, rest)
  | [] => .ok none

/-- How far a pattern has been read. -/
structure GlobScan where
  /-- The character read last. -/
  last : Option Char := none
  /-- Whether a bracket without a closing one has been met. -/
  unclosed : Bool := false
  /-- The tokens of the innermost branch, in reverse. -/
  current : List Token := []
  /-- For each open brace, from the inside: the tokens before it and the finished branches, both in
  reverse. -/
  outer : List (List Token × List (List Token)) := []

namespace GlobScan

/-- Adds a token to the innermost branch. -/
def push (s : GlobScan) (t : Token) : GlobScan := { s with current := t :: s.current }

/-- Puts a token in place of the slash before it; after another `**` nothing changes. -/
def absorb (s : GlobScan) (t : Token) : GlobScan :=
  match s.current with
  | .leading :: _ | .trailing :: _ => s
  | _ :: before => { s with current := t :: before }
  | [] => s

/-- Whether a brace is open. -/
def inGroup (s : GlobScan) : Bool := !s.outer.isEmpty

/-- The pattern after a `*`; `before` is the character in front of it. -/
def star (s : GlobScan) (before : Option Char) : List Char → GlobScan × List Char
  | '*' :: rest =>
    let plain := ((s.push .run).push .run, rest)
    let atSlash (s : GlobScan) : GlobScan := { s with last := some '/' }
    if s.current.isEmpty then
      match rest with
      | [] => (s.push .leading, [])
      | '/' :: rest => (atSlash (s.push .leading), rest)
      | _ => plain
    else if before = some '/' ∨ s.inGroup ∧ (before = some ',' ∨ before = some '{') then
      match rest with
      | [] => (s.absorb .trailing, [])
      | '/' :: rest => (atSlash (s.absorb .between), rest)
      | c :: _ => if s.inGroup ∧ (c = ',' ∨ c = '}') then (s.absorb .trailing, rest) else plain
    else plain
  | rest => (s.push .run, rest)

/-- The pattern after a comma. -/
def comma (s : GlobScan) : GlobScan :=
  match s.outer with
  | [] => s.push (.literal ',')
  | (before, done) :: outer =>
    { s with current := [], outer := (before, s.current.reverse :: done) :: outer }

/-- The pattern after a closing brace. -/
def close (s : GlobScan) : Except PatternCause GlobScan :=
  match s.outer with
  | [] => .error .unopenedAlternates
  | (before, done) :: outer =>
    .ok { s with
      current := .alternates (s.current.reverse :: done).reverse :: before
      outer }

/-- The tokens of a finished pattern. -/
def finish (s : GlobScan) : Except PatternCause (List Token) :=
  if s.inGroup then .error .unclosedAlternates else .ok s.current.reverse

/-- Reads on; `n` bounds the length of the text. -/
def readFrom : Nat → GlobScan → List Char → Except PatternCause (List Token)
  | 0, s, _ | _, s, [] => s.finish
  | n + 1, s, c :: rest =>
    let before := s.last
    let s := { s with last := some c }
    match c with
    | '?' => readFrom n (s.push .any) rest
    | '*' =>
      let (s, rest) := s.star before rest
      readFrom n s rest
    | '[' =>
      if s.unclosed then readFrom n (s.push (.literal '[')) rest
      else
        match class? rest with
        | .error cause => .error cause
        | .ok (some (token, rest)) => readFrom n { s.push token with last := some ']' } rest
        | .ok none => readFrom n { s.push (.literal '[') with unclosed := true } rest
    | '{' => readFrom n { s with current := [], outer := (s.current, []) :: s.outer } rest
    | '}' =>
      match s.close with
      | .ok s => readFrom n s rest
      | .error cause => .error cause
    | ',' => readFrom n s.comma rest
    | '\\' =>
      match rest with
      | [] => .error .danglingEscape
      | e :: rest => readFrom n { s.push (.literal e) with last := some e } rest
    | c => readFrom n (s.push (.literal c)) rest

end GlobScan

/-- The tokens of a glob pattern. -/
def tokensOf (glob : List Char) : Except PatternCause (List Token) :=
  GlobScan.readFrom glob.length {} glob

/-! ### Matching -/

/-- The byte of a slash. -/
def slash : UInt8 := 47

/-- What is left of a text after some bytes that are no slashes, in all ways. -/
def afterRun : List UInt8 → List (List UInt8)
  | [] => [[]]
  | b :: rest => (b :: rest) :: if b = slash then [] else afterRun rest

/-- What is left of a text behind each of its slashes. -/
def afterSlashes : List UInt8 → List (List UInt8)
  | [] => []
  | b :: rest => if b = slash then rest :: afterSlashes rest else afterSlashes rest

/-- Everything that can be left of a text. -/
def suffixes : List UInt8 → List (List UInt8)
  | [] => [[]]
  | b :: rest => (b :: rest) :: suffixes rest

/-- The ranges of bytes that a range of characters stands for. -/
def byteRanges (r : Char × Char) : List (UInt8 × UInt8) :=
  let single (b : UInt8) : UInt8 × UInt8 := (b, b)
  let first := String.utf8EncodeChar r.1
  let last := String.utf8EncodeChar r.2
  if r.1 = r.2 then first.map single
  else
    match first.getLast?, last with
    | some a, b :: more => first.dropLast.map single ++ (a, b) :: more.map single
    | _, _ => []

/-- Whether a byte is in a class. -/
def inClass (negated : Bool) (ranges : List (Char × Char)) (b : UInt8) : Bool :=
  ((ranges.flatMap byteRanges).any fun r => decide (r.1 ≤ b ∧ b ≤ r.2)) != negated

/-- Drops texts of a length that has come before. -/
def distinct (rests : List (List UInt8)) : List (List UInt8) :=
  (rests.foldl (fun (seen : List Nat × List (List UInt8)) rest =>
    if seen.1.contains rest.length then seen else (rest.length :: seen.1, rest :: seen.2))
    ([], [])).2.reverse

mutual

/-- Whether a token is an alternative of nothing but empty branches. -/
def Token.isVoid : Token → Bool
  | .alternates branches => branchesVoid branches
  | _ => false

/-- Whether all branches are empty. -/
def branchesVoid : List (List Token) → Bool
  | [] => true
  | branch :: rest => tokensVoid branch && branchesVoid rest

/-- Whether all tokens are empty. -/
def tokensVoid : List Token → Bool
  | [] => true
  | t :: rest => t.isVoid && tokensVoid rest

end

mutual

/-- What is left of a text after a token, in all ways. Empty branches do not count as alternatives,
unless there are no others. -/
def Token.rests : Token → List UInt8 → List (List UInt8)
  | .literal c, cs => (List.isPrefixOf? (String.utf8EncodeChar c) cs).toList
  | .any, b :: rest => if b = slash then [] else [rest]
  | .any, [] => []
  | .run, cs => afterRun cs
  | .leading, cs => cs :: afterSlashes cs
  | .trailing, b :: rest => if b = slash then suffixes rest else []
  | .trailing, [] => []
  | .between, b :: rest => if b = slash then rest :: afterSlashes rest else []
  | .between, [] => []
  | .oneOf negated ranges, b :: rest => if inClass negated ranges b then [rest] else []
  | .oneOf _ _, [] => []
  | .alternates branches, cs => if branchesVoid branches then [cs] else branchesRests branches cs

/-- What is left of a text after one of some branches. -/
def branchesRests : List (List Token) → List UInt8 → List (List UInt8)
  | [], _ => []
  | branch :: rest, cs =>
    (if tokensVoid branch then [] else tokensRests branch [cs]) ++ branchesRests rest cs

/-- What is left of some texts after tokens. -/
def tokensRests : List Token → List (List UInt8) → List (List UInt8)
  | [], texts => texts
  | t :: rest, texts => tokensRests rest (distinct (texts.flatMap t.rests))

end

/-- Whether a pattern matches a whole path; a lone `**` matches every one. -/
def isMatch (tokens : List Token) (path : List UInt8) : Bool :=
  match tokens with
  | [.leading] => true
  | tokens => (tokensRests tokens [path]).any List.isEmpty

end AspAtlas.Ignore
