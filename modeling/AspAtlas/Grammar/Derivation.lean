import AspAtlas.Grammar.Rules
import AspAtlas.Surface.Tree
/-!
What the grammar makes of a text: the tree of the rules that matched. Recognition is as in
`recognize`, but its steps are relations, so that there is no bound on their number; every match of
a rule leaves a pair of the rule and its text, with the pairs of the matches inside.
-/
namespace AspAtlas.Grammar

/-- A place in a text, by line and column. -/
structure Place where
  position : Position
  rest : List Char

namespace Place

/-- The begin of a text. -/
def start (cs : List Char) : Place := ⟨Position.start, cs⟩

/-- The place after a piece of text. -/
def move (p : Place) (used rest : List Char) : Place := ⟨Surface.advanceBy p.position used, rest⟩

/-- The place after up to `n` blanks and comments here. -/
def skipUpTo : Nat → Place → Place
  | 0, p => p
  | n + 1, p =>
    match Surface.gap? p.rest with
    | some (used, rest) => skipUpTo n (p.move used rest)
    | none => p

/-- The place after the blanks and comments here. -/
def skip (p : Place) : Place := skipUpTo p.rest.length p

/-- Where the next part of a sequence is looked for: a token has no blanks inside. -/
def pause (p : Place) (inToken : Bool) : Place := if inToken then p else p.skip

/-- The text from one place to a later one. -/
def textTo (p later : Place) : String :=
  String.ofList (p.rest.take (p.rest.length - later.rest.length))

end Place

/-- A match of a rule: where it is, its text, and the matches inside. -/
structure Pair where
  rule : Rule
  span : Surface.Span
  text : String
  inner : List Pair

/-- What comes of an expression at a place: it fails, or leads to a later
place and leaves some pairs. -/
inductive Derives : Bool → Expr Rule → Place → Option (Place × List Pair) → Prop
  | text {inToken : Bool} {spelling : String} {p : Place} {rest : List Char}
      (h : Text.afterLead? spelling.toList p.rest = some rest) :
      Derives inToken (.text spelling) p (some (p.move spelling.toList rest, []))
  | noText {inToken : Bool} {spelling : String} {p : Place}
      (h : Text.afterLead? spelling.toList p.rest = none) : Derives inToken (.text spelling) p none
  | char {inToken : Bool} {accept : Char → Bool} {p : Place} {c : Char} {rest : List Char}
      (h : p.rest = c :: rest) (hc : accept c = true) :
      Derives inToken (.char accept) p (some (p.move [c] rest, []))
  | noChar {inToken : Bool} {accept : Char → Bool} {p : Place}
      (h : ∀ c ∈ p.rest.head?, accept c = false) : Derives inToken (.char accept) p none
  | finish {inToken : Bool} {p : Place} (h : p.rest = []) : Derives inToken .finish p (some (p, []))
  | noFinish {inToken : Bool} {p : Place} (h : p.rest ≠ []) : Derives inToken .finish p none
  | rule {inToken : Bool} {r : Rule} {p q : Place} {inner : List Pair}
      (h : Derives (definition r).isToken (definition r).body p (some (q, inner))) :
      Derives inToken (.rule r) p (some (q, [⟨r, ⟨p.position, q.position⟩, p.textTo q, inner⟩]))
  | noRule {inToken : Bool} {r : Rule} {p : Place}
      (h : Derives (definition r).isToken (definition r).body p none) :
      Derives inToken (.rule r) p none
  | seq {inToken : Bool} {a b : Expr Rule} {p q s : Place} {xs ys : List Pair}
      (ha : Derives inToken a p (some (q, xs)))
      (hb : Derives inToken b (q.pause inToken) (some (s, ys))) :
      Derives inToken (.seq a b) p (some (s, xs ++ ys))
  | noFirst {inToken : Bool} {a b : Expr Rule} {p : Place} (ha : Derives inToken a p none) :
      Derives inToken (.seq a b) p none
  | noSecond {inToken : Bool} {a b : Expr Rule} {p q : Place} {xs : List Pair}
      (ha : Derives inToken a p (some (q, xs))) (hb : Derives inToken b (q.pause inToken) none) :
      Derives inToken (.seq a b) p none
  | left {inToken : Bool} {a b : Expr Rule} {p : Place} {found : Place × List Pair}
      (ha : Derives inToken a p (some found)) : Derives inToken (.alt a b) p (some found)
  | right {inToken : Bool} {a b : Expr Rule} {p : Place} {found : Option (Place × List Pair)}
      (ha : Derives inToken a p none) (hb : Derives inToken b p found) :
      Derives inToken (.alt a b) p found
  | there {inToken : Bool} {a : Expr Rule} {p : Place} {found : Place × List Pair}
      (ha : Derives inToken a p (some found)) : Derives inToken (.opt a) p (some found)
  | missing {inToken : Bool} {a : Expr Rule} {p : Place} (ha : Derives inToken a p none) :
      Derives inToken (.opt a) p (some (p, []))
  | never {inToken : Bool} {a : Expr Rule} {p : Place} (ha : Derives inToken a p none) :
      Derives inToken (.rep a) p (some (p, []))
  | last {inToken : Bool} {a : Expr Rule} {p q : Place} {xs : List Pair}
      (ha : Derives inToken a p (some (q, xs))) (hb : Derives inToken a (q.pause inToken) none) :
      Derives inToken (.rep a) p (some (q, xs))
  | again {inToken : Bool} {a : Expr Rule} {p q s : Place} {xs ys : List Pair}
      {next : Place × List Pair}
      (ha : Derives inToken a p (some (q, xs)))
      (hb : Derives inToken a (q.pause inToken) (some next))
      (hmore : Derives inToken (.rep a) (q.pause inToken) (some (s, ys))) :
      Derives inToken (.rep a) p (some (s, xs ++ ys))
  | present {inToken : Bool} {a : Expr Rule} {p : Place} {found : Place × List Pair}
      (ha : Derives inToken a p (some found)) : Derives inToken (.absent a) p none
  | absent {inToken : Bool} {a : Expr Rule} {p : Place} (ha : Derives inToken a p none) :
      Derives inToken (.absent a) p (some (p, []))

end AspAtlas.Grammar
