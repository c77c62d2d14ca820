/-!
Natural numbers in decimal digits.
-/
namespace AspAtlas.Text

/-- The number that decimal digits stand for. -/
def natOf (digits : List Char) : Nat := digits.foldl (fun n c => n * 10 + (c.toNat - 48)) 0

/-- Up to `width` digits that a text starts with, at least one. -/
def number? (width : Nat) (cs : List Char) : Option (Nat × List Char) :=
  let used := (cs.take width).takeWhile Char.isDigit
  if used.isEmpty then none else some (natOf used, cs.drop used.length)

/-- A number with leading zeros, at least `width` digits wide. -/
def padded (width n : Nat) : String :=
  let digits := toString n
  String.ofList (List.replicate (width - digits.length) '0') ++ digits

end AspAtlas.Text
