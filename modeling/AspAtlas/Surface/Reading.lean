import AspAtlas.Surface.Tree
/-!
Building blocks for reading tokens. A reader takes tokens from the front of a list and fails without
taking any; alternatives are tried in order, and a repetition takes as much as it can.
-/
namespace AspAtlas.Surface

/-- Takes a construct from the front of a token list. -/
abbrev Reader (α : Type) := List Token → Option (α × List Token)

/-- Where the next token begins. A construct whose optional last part is missing reaches up to
there. -/
def beginOf : List Token → Position
  | [] => Position.start
  | t :: _ => t.begin

/-- Takes a symbol; its end goes with it. -/
def punct (symbol : Punct) : Reader Position
  | ⟨.punct s, _, stop⟩ :: ts => if s = symbol then some (stop, ts) else none
  | _ => none

/-- Takes the dot that ends a statement. Of two dots in a row only the first is taken. -/
def endDot : Reader Position
  | ⟨.punct .dot, _, stop⟩ :: ts => some (stop, ts)
  | ⟨.punct .dots, begin, stop⟩ :: ts =>
    let middle := begin.advance '.'
    some (middle, ⟨.punct .dot, middle, stop⟩ :: ts)
  | _ => none

/-- Takes a symbol that has a property. -/
def punctWith (accept : Punct → Bool) : Reader Punct
  | ⟨.punct s, _, _⟩ :: ts => if accept s then some (s, ts) else none
  | _ => none

/-- Takes a keyword. -/
def keyword (word : Keyword) : Reader Unit
  | ⟨.keyword k, _, _⟩ :: ts => if k = word then some ((), ts) else none
  | _ => none

/-- Takes a keyword that has a property. -/
def keywordWith (accept : Keyword → Bool) : Reader Keyword
  | ⟨.keyword k, _, _⟩ :: ts => if accept k then some (k, ts) else none
  | _ => none

/-- Takes an identifier. -/
def identifier : Reader String
  | ⟨.identifier text, _, _⟩ :: ts => some (text, ts)
  | _ => none

/-- Takes a number. -/
def number : Reader String
  | ⟨.number digits, _, _⟩ :: ts => some (digits, ts)
  | _ => none

/-- Takes a construct if it is there. -/
def optional {α : Type} (item : Reader α) (ts : List Token) : Option α × List Token :=
  match item ts with
  | some (a, rest) => (some a, rest)
  | none => (none, ts)

/-- Takes one construct after another as long as one is there; `n` bounds their number. -/
def many {α : Type} (item : Reader α) : Nat → List Token → List α × List Token
  | 0, ts => ([], ts)
  | n + 1, ts =>
    match item ts with
    | some (a, rest) =>
      let (more, left) := many item n rest
      (a :: more, left)
    | none => ([], ts)

/-- Takes a separator and the construct after it. -/
def after {α : Type} (separator : Punct → Bool) (item : Reader α) : Reader α := fun ts => do
  let (_, ts) ← punctWith separator ts
  item ts

/-- Takes the further members of a separated list. -/
def further {α : Type} (n : Nat) (separator : Punct → Bool) (item : Reader α)
    (ts : List Token) : List α × List Token :=
  many (after separator item) n ts

/-- The end of the last further member, or of the blanks before the next token if there is none. -/
def endOf {α : Type} (stop : α → Position) (more : List α) (ts : List Token) : Position :=
  match more.getLast? with
  | some a => stop a
  | none => beginOf ts

/-- Takes a possibly empty list of constructs separated by semicolons. -/
def semicolons {α : Type} (n : Nat) (item : Reader α) (ts : List Token) : List α × List Token :=
  match item ts with
  | some (first, rest) =>
    let (more, left) := further n (· = .semicolon) item rest
    (first :: more, left)
  | none => ([], ts)

end AspAtlas.Surface
