/-!
DOT text. Names are quoted, with backslashes and quotes escaped, so that no name can end early.
-/
namespace AspAtlas.Dot

/-- A character inside a quoted name. -/
def escapeChar (c : Char) : List Char := if c = '\\' ∨ c = '"' then ['\\', c] else [c]

/-- A quoted name. -/
def quoted (name : String) : String :=
  String.ofList ('"' :: (name.toList.flatMap escapeChar ++ ['"']))

/-- A directed graph of a title, with its inner lines. -/
def digraph (title : String) (lines : List String) : String :=
  String.join <| ([s!"digraph {quoted title} \x7b", s!"  label={quoted title};", "  fontsize=20;"]
    ++ lines ++ ["\x7d"]).map (· ++ "\n")

end AspAtlas.Dot
