import AspAtlas.Ignore.Glob
import AspAtlas.Path.Basic
import AspAtlas.Text.Blank
/-!
Rules that leave paths out, one pattern a line. The last rule that matches decides; `!` in front of
a pattern keeps paths, and a slash behind it restricts it to folders. A pattern without an inner
slash matches names at any depth, any other one the whole path below the folder of the rules.
-/
namespace AspAtlas.Ignore

/-- A rule about paths. -/
structure Rule where
  tokens : List Token
  keeps : Bool
  foldersOnly : Bool
deriving Repr

/-- A text without `c` at its end, if it is there. -/
def dropEnd? (c : Char) (cs : List Char) : Option (List Char) :=
  match cs.reverse with
  | d :: before => if d = c then some before.reverse else none
  | [] => none

/-- The glob pattern that a rule stands for: names match at any depth, and a final `/**` does not
match the folder itself. -/
def globOf (anchored : Bool) (body : List Char) : List Char :=
  let deep := ['*', '*', '/']
  let glob := if anchored || body.contains '/' || body == ['*', '*'] then body else deep ++ body
  if ['*', '*', '/'].isPrefixOf glob.reverse then glob ++ ['/', '*'] else glob

/-- Whether a pattern is about kept paths, whether it is anchored, and what is left of it. -/
def marksOf (line : List Char) : Bool × Bool × List Char :=
  match line with
  | '\\' :: '!' :: rest => (false, false, '!' :: rest)
  | '\\' :: '#' :: rest => (false, false, '#' :: rest)
  | _ =>
    let (keeps, body) := match line with
      | '!' :: rest => (true, rest)
      | _ => (false, line)
    match body with
    | '/' :: rest => (keeps, true, rest)
    | _ => (keeps, false, body)

/-- A line without blanks at its end, unless a backslash protects the last one. -/
def trimLine (line : List Char) : List Char :=
  if [' ', '\\'].isPrefixOf line.reverse then line else Text.trimEnd line

/-- The rule on a line, or what is wrong with it; comments and blank lines hold none. The pattern is
given back as it was read. -/
def ruleOf (line : List Char) : Except (String × PatternCause) (Option Rule) :=
  if line.head? = some '#' then .ok none
  else
    let line := trimLine line
    if line.isEmpty then .ok none
    else
      let (keeps, anchored, body) := marksOf line
      let (foldersOnly, body) := match dropEnd? '/' body with
        | some body => (true, (dropEnd? '\\' body).getD body)
        | none => (false, body)
      match tokensOf (globOf anchored body) with
      | .ok tokens => .ok (some { tokens, keeps, foldersOnly })
      | .error cause => .error (String.ofList line, cause)

/-- What rules say about a path. -/
inductive Verdict where
  | silent
  | ignored
  | kept
deriving DecidableEq, Repr

/-- The first verdict that is not silent. -/
def Verdict.orElse (a b : Verdict) : Verdict := if a = .silent then b else a

/-- The rules of a folder, in order. -/
structure Rules where
  /-- The folder, as it is spelled in paths. -/
  root : List Char
  rules : List Rule := []
deriving Repr

/-- A text without a leading `./`. -/
def dropDot : List Char → List Char
  | '.' :: '/' :: rest => rest
  | cs => cs

/-- A text without a leading part, if it is there. -/
def dropLead (lead cs : List Char) : List Char := (Text.afterLead? lead cs).getD cs

namespace Rules

/-- The rules of a folder. -/
def new (folder : Path) (rules : List Rule) : Rules := ⟨dropDot folder.text.toList, rules⟩

/-- A path as the rules see it: below their folder. -/
def strip (r : Rules) (path : List Char) : List Char :=
  let path := dropDot path
  if (⟨String.ofList r.root⟩ : Path) == ⟨"."⟩ || !path.contains '/' then path
  else
    match Text.afterLead? r.root path with
    | some rest => dropLead ['/'] rest
    | none => path

/-- What the rules say about a path. -/
def verdict (r : Rules) (path : List Char) (isFolder : Bool) : Verdict :=
  if r.rules.isEmpty then .silent
  else
    let bytes := (r.strip path).flatMap String.utf8EncodeChar
    match r.rules.reverse.find? fun rule =>
      (!rule.foldersOnly || isFolder) && isMatch rule.tokens bytes with
    | some rule => if rule.keeps then .kept else .ignored
    | none => .silent

end Rules
end AspAtlas.Ignore
