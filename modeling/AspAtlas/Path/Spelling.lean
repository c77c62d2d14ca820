import AspAtlas.Path.Basic
/-!
Operations that build new spellings: parents, joins, extensions and paths relative to another. What
remains of a spelled path is kept as it was written; only slashes and `.` parts next to the cut go.
-/
namespace AspAtlas.Path

/-- Drops slashes and `.` parts from the end of a text given in reverse. A `.` that starts the text
is a component and stays. -/
def dropTail : List Char → List Char
  | '/' :: rest => dropTail rest
  | '.' :: '/' :: rest => dropTail ('/' :: rest)
  | cs => cs
termination_by cs => cs.length

/-- The text up to the end of its last component. -/
def trimTail (cs : List Char) : List Char := (dropTail cs.reverse).reverse

/-- Drops slashes and `.` parts from the start of a text. -/
def trimLead : List Char → List Char
  | [] => []
  | '/' :: rest => trimLead rest
  | ['.'] => []
  | '.' :: '/' :: rest => trimLead rest
  | cs => cs

/-- The path without its last component; the root and the empty path have no parent. -/
def parent? (p : Path) : Option Path :=
  match p.components with
  | [] => none
  | [.root] => none
  | _ =>
    let reversed := dropTail p.text.toList.reverse
    let before := dropTail (reversed.dropWhile (· != '/'))
    if before.isEmpty && p.isAbsolute then some ⟨"/"⟩
    else some ⟨String.ofList before.reverse⟩

/-- A path below `p`; an absolute one replaces it. -/
def join (p : Path) (tail : String) : Path :=
  if tail.toList.head? = some '/' then ⟨tail⟩
  else if p.text.isEmpty || p.text.toList.getLast? = some '/' then ⟨p.text ++ tail⟩
  else ⟨p.text ++ "/" ++ tail⟩

/-- The path with the extension of its file name replaced, or removed when `ext` is
empty. What followed the file name is dropped; a path without a file name does not
change. Two dots with an extension are no file name any more once that extension is gone,
so nothing else is added to them. -/
def withExtension (p : Path) (ext : String) : Path :=
  match p.fileName? with
  | none => p
  | some name =>
    let reversed := p.text.toList.reverse
    let before := String.ofList ((dropTail reversed).dropWhile (· != '/')).reverse
    let stem := (splitFileName name).1
    if stem = "." ∧ dropTail reversed = reversed then ⟨before ++ ".."⟩
    else if ext.isEmpty then ⟨before ++ stem⟩
    else ⟨before ++ stem ++ "." ++ ext⟩

/-- The text after its first component; the first component of a whole path may be the root or a
leading `.`. -/
def dropFirst : List Char → List Char
  | '/' :: rest => rest
  | ['.'] => []
  | '.' :: '/' :: rest => '/' :: rest
  | cs => cs.dropWhile (· != '/')

/-- The text after `n` more components. -/
def dropMore : Nat → List Char → List Char
  | 0, cs => cs
  | n + 1, cs => dropMore n ((trimLead cs).dropWhile (· != '/'))

/-- The path relative to `base`, when it lies at or below it. -/
def stripLead? (p base : Path) : Option Path :=
  let lead := base.components
  if lead.isPrefixOf p.components then
    match lead.length with
    | 0 => some ⟨String.ofList (trimTail p.text.toList)⟩
    | n + 1 =>
      let rest := trimLead (dropMore n (dropFirst p.text.toList))
      some ⟨String.ofList (trimTail rest)⟩
  else none

end AspAtlas.Path
