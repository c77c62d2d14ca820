import AspAtlas.Surface.Lexer
/-!
Recognising text by a grammar given as data, and remembering where recognition got stuck. Choices
are ordered, repetitions are greedy, and blanks and comments may stand between the parts of a
sequence unless it is one token. The rules that failed at the farthest position are what the text
was expected to go on with.
-/
namespace AspAtlas.Grammar

/-- What a rule accepts, over rule names `ρ`. -/
inductive Expr (ρ : Type) where
  | text (spelling : String)
  | char (accept : Char → Bool)
  | finish
  | rule (name : ρ)
  | seq (first second : Expr ρ)
  | alt (first second : Expr ρ)
  | opt (part : Expr ρ)
  | rep (part : Expr ρ)
  | absent (part : Expr ρ)

namespace Expr

variable {ρ : Type}

/-- One after the other. -/
def parts : List (Expr ρ) → Expr ρ
  | [] => text ""
  | [part] => part
  | part :: rest => seq part (parts rest)

/-- The first that fits. -/
def oneOf : List (Expr ρ) → Expr ρ
  | [] => absent (text "")
  | [part] => part
  | part :: rest => alt part (oneOf rest)

/-- The first of some spellings that fits. -/
def spellings (texts : List String) : Expr ρ := oneOf (texts.map text)

/-- A part, and further ones after a separator each. -/
def separated (separator part : Expr ρ) : Expr ρ := seq part (rep (seq separator part))

end Expr

/-- A rule: what it accepts, and whether it is one token without blanks inside. -/
structure Definition (ρ : Type) where
  body : Expr ρ
  isToken : Bool := false

/-- A place in a text. -/
structure Cursor where
  offset : Nat
  rest : List Char
deriving DecidableEq

namespace Cursor

/-- The place after a piece of text. -/
def move (c : Cursor) (used rest : List Char) : Cursor := ⟨c.offset + used.length, rest⟩

/-- The place after the blanks and comments here; `n` bounds their number. -/
def skip : Nat → Cursor → Cursor
  | 0, c => c
  | n + 1, c =>
    match Surface.gap? c.rest with
    | some (used, rest) => skip n (c.move used rest)
    | none => c

end Cursor

/-- The rules that failed at the farthest position at which one failed. -/
structure Attempts (ρ : Type) where
  offset : Nat
  rules : List ρ

namespace Attempts

variable {ρ : Type}

/-- The number of failures noted at a position. -/
def countAt (a : Attempts ρ) (offset : Nat) : Nat := if offset = a.offset then a.rules.length else 0

/-- Notes that a rule failed which was tried at `offset` when `before` was noted. A rule of which
one part alone failed right there leaves the note of that part. -/
def note (before a : Attempts ρ) (offset : Nat) (rule : ρ) : Attempts ρ :=
  if a.countAt offset = before.countAt offset + 1 then a
  else if offset = a.offset then ⟨offset, a.rules.take (before.countAt offset) ++ [rule]⟩
  else if a.offset < offset then ⟨offset, [rule]⟩
  else a

end Attempts

/-- Recognises an expression at a place; `n` bounds nesting and repetition. -/
def recognize {ρ : Type} (rules : ρ → Definition ρ) (inToken : Bool) :
    Nat → Expr ρ → Cursor → Attempts ρ → Option Cursor × Attempts ρ
  | 0, _, _, a => (none, a)
  | n + 1, e, c, a =>
    let pause (c : Cursor) : Cursor := if inToken then c else c.skip n
    match e with
    | .text spelling =>
      match Text.afterLead? spelling.toList c.rest with
      | some rest => (some (c.move spelling.toList rest), a)
      | none => (none, a)
    | .char accept =>
      match c.rest with
      | d :: rest => if accept d then (some (c.move [d] rest), a) else (none, a)
      | [] => (none, a)
    | .finish => (if c.rest.isEmpty then some c else none, a)
    | .rule name =>
      let d := rules name
      match recognize rules d.isToken n d.body c a with
      | (some c', a') => (some c', a')
      | (none, a') => (none, a.note a' c.offset name)
    | .seq first second =>
      match recognize rules inToken n first c a with
      | (some c', a') => recognize rules inToken n second (pause c') a'
      | (none, a') => (none, a')
    | .alt first second =>
      match recognize rules inToken n first c a with
      | (some c', a') => (some c', a')
      | (none, a') => recognize rules inToken n second c a'
    | .opt part =>
      match recognize rules inToken n part c a with
      | (some c', a') => (some c', a')
      | (none, a') => (some c, a')
    | .rep part =>
      match recognize rules inToken n part c a with
      | (none, a') => (some c, a')
      | (some c', a') =>
        let next := pause c'
        match recognize rules inToken n (.rep part) next a' with
        | (some c'', a'') => (some (if c'' = next then c' else c''), a'')
        | (none, a'') => (some c', a'')
    | .absent part =>
      match recognize rules inToken n part c a with
      | (some _, a') => (none, a')
      | (none, a') => (some c, a')

end AspAtlas.Grammar
