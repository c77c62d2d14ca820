/-!
Blank characters and trimming. A character is blank when it has the Unicode property White_Space;
trimming removes blanks at the ends of a text and nothing inside it.
-/
namespace AspAtlas.Text

/-- The Unicode property White_Space. -/
def isBlank (c : Char) : Bool :=
  let n := c.toNat
  (9 ≤ n && n ≤ 13) || n == 0x20 || n == 0x85 || n == 0xA0 || n == 0x1680
    || (0x2000 ≤ n && n ≤ 0x200A) || n == 0x2028 || n == 0x2029 || n == 0x202F
    || n == 0x205F || n == 0x3000

/-- The text without its leading blanks. -/
def trimStart (cs : List Char) : List Char := cs.dropWhile isBlank

/-- The text without its trailing blanks. -/
def trimEnd (cs : List Char) : List Char := (cs.reverse.dropWhile isBlank).reverse

/-- The text without blanks at either end. -/
def trim (cs : List Char) : List Char := trimEnd (trimStart cs)

/-- What follows `lead` in a text that starts with it. -/
def afterLead? : List Char → List Char → Option (List Char)
  | [], cs => some cs
  | _ :: _, [] => none
  | d :: ds, c :: cs => if d = c then afterLead? ds cs else none

theorem afterLead?_eq_some_iff {lead cs rest : List Char} :
    afterLead? lead cs = some rest ↔ cs = lead ++ rest := by
  induction lead generalizing cs with
  | nil => simp [afterLead?]
  | cons d ds ih =>
    cases cs with
    | nil => simp [afterLead?]
    | cons c cs =>
      by_cases h : d = c
      · subst h
        simp [afterLead?, ih]
      · simp [afterLead?, h, Ne.symm h]

end AspAtlas.Text
