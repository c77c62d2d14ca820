import AspAtlas.Location
/-!
The lexical units of answer set programs: keywords, words, numbers, quoted texts and symbols, each
with the place where it stands.
-/
namespace AspAtlas.Surface

/-- The words that start with a hash sign. A keyword needs no blank after it. -/
inductive Keyword where
  | includes
  | const
  | defined
  | shows
  | program
  | external
  | minimize
  | maximize
  | count
  | sumPlus
  | sum
  | min
  | max
  | truth
  | falsity
  | supremum
  | sup
  | infimum
  | inf
deriving DecidableEq, Repr

namespace Keyword

/-- A keyword as written. -/
def text : Keyword → String
  | includes => "#include"
  | const => "#const"
  | defined => "#defined"
  | shows => "#show"
  | program => "#program"
  | external => "#external"
  | minimize => "#minimize"
  | maximize => "#maximize"
  | count => "#count"
  | sumPlus => "#sum+"
  | sum => "#sum"
  | min => "#min"
  | max => "#max"
  | truth => "#true"
  | falsity => "#false"
  | supremum => "#supremum"
  | sup => "#sup"
  | infimum => "#infimum"
  | inf => "#inf"

/-- Every keyword; one that another starts with comes after it. -/
def all : List Keyword :=
  [includes, const, defined, shows, program, external, minimize, maximize, count, sumPlus, sum, min,
    max, truth, falsity, supremum, sup, infimum, inf]

/-- A keyword without its hash sign. -/
def name (k : Keyword) : String := String.ofList (k.text.toList.drop 1)

end Keyword

/-- Punctuation and operators. -/
inductive Punct where
  | dots
  | power
  | ifThen
  | weakIf
  | notEqual
  | lessEqual
  | greaterEqual
  | sameAs
  | equal
  | less
  | greater
  | plus
  | minus
  | times
  | slash
  | backslash
  | ampersand
  | question
  | caret
  | dot
  | comma
  | semicolon
  | colon
  | bar
  | atSign
  | opening
  | closing
  | openBrace
  | closeBrace
  | openBracket
  | closeBracket
deriving DecidableEq, Repr

namespace Punct

/-- A symbol as written. -/
def text : Punct → String
  | dots => ".."
  | power => "**"
  | ifThen => ":-"
  | weakIf => ":~"
  | notEqual => "!="
  | lessEqual => "<="
  | greaterEqual => ">="
  | sameAs => "=="
  | equal => "="
  | less => "<"
  | greater => ">"
  | plus => "+"
  | minus => "-"
  | times => "*"
  | slash => "/"
  | backslash => "\\"
  | ampersand => "&"
  | question => "?"
  | caret => "^"
  | dot => "."
  | comma => ","
  | semicolon => ";"
  | colon => ":"
  | bar => "|"
  | atSign => "@"
  | opening => "("
  | closing => ")"
  | openBrace => "\x7b"
  | closeBrace => "\x7d"
  | openBracket => "["
  | closeBracket => "]"

/-- Every symbol; one that another starts with comes after it. -/
def all : List Punct :=
  [dots, power, ifThen, weakIf, notEqual, lessEqual, greaterEqual, sameAs, equal, less, greater,
    plus, minus, times, slash, backslash, ampersand, question, caret, dot, comma, semicolon, colon,
    bar, atSign, opening, closing, openBrace, closeBrace, openBracket, closeBracket]

/-- The symbols that join two terms into one. -/
def isArithmetic : Punct → Bool
  | dots | power | plus | minus | times | slash | backslash | ampersand | question | caret => true
  | _ => false

/-- The symbols that compare two terms. -/
def isComparison : Punct → Bool
  | notEqual | lessEqual | greaterEqual | sameAs | equal | less | greater => true
  | _ => false

end Punct

/-- A lexical unit. A stray character belongs to no other unit, and no program contains one; the
last unit of every text is `finish`. -/
inductive Lexeme where
  | keyword (word : Keyword)
  | identifier (text : String)
  | var (text : String)
  | number (digits : String)
  | quoted (text : String)
  | punct (symbol : Punct)
  | stray (c : Char)
  | finish
deriving DecidableEq, Repr

/-- A lexical unit at its place. -/
structure Token where
  lexeme : Lexeme
  begin : Position
  stop : Position
deriving DecidableEq, Repr

end AspAtlas.Surface
