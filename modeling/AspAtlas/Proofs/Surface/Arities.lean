import AspAtlas.Proofs.Surface.Relocation
/-!
The arities that signature statements declare. Lowering fails on the first one that is too large,
and on nothing else.
-/
namespace AspAtlas.Surface

/-- The arity that a signature statement declares, as written. -/
def Statement.arity? : Statement → Option String
  | .defined _ _ digits | .showSignature _ _ digits => some digits
  | _ => none

/-- Whether digits stand for a number that no arity can be. -/
def isOversized (digits : String) : Bool := decide (arityLimit ≤ Text.natOf digits.toList)

/-- The declared arity of a statement if it is too large. -/
def Statement.oversized? (s : Statement) : Option String := s.arity?.filter isOversized

variable {file : Path}

theorem lowerSignature_eq (span : Span) (kind : NodeKind) (name digits : String) :
    lowerSignature file span kind name digits =
      if isOversized digits then .error digits
      else .ok { named file span kind name with arity := some (Text.natOf digits.toList) } := by
  unfold lowerSignature isOversized
  by_cases h : Text.natOf digits.toList < arityLimit
  · simp [h]
  · simp [h, Nat.le_of_not_lt h]

/-- A statement lowers to items unless its declared arity is too large. -/
theorem Statement.lower_cases (file : Path) (s : Statement) :
    match s.oversized? with
    | some digits => s.lower file = .error digits
    | none => ∃ items, s.lower file = .ok items := by
  cases s with
  | defined span name digits =>
    cases h : isOversized digits <;>
      simp [Statement.oversized?, Statement.arity?, Option.filter, Statement.lower,
        lowerSignature_eq, h, Except.map]
  | showSignature span name digits =>
    cases h : isOversized digits <;>
      simp [Statement.oversized?, Statement.arity?, Option.filter, Statement.lower,
        lowerSignature_eq, h, Except.map]
  | _ => exact ⟨_, rfl⟩

/-- A program lowers to items unless a declared arity is too large; the
first such arity is given back. -/
theorem lowerProgram_cases (file : Path) (statements : List Statement) :
    match statements.findSome? Statement.oversized? with
    | some digits => lowerProgram file statements = .error digits
    | none => ∃ items, lowerProgram file statements = .ok items := by
  induction statements with
  | nil => exact ⟨[], rfl⟩
  | cons s statements ih =>
    have hs := s.lower_cases file
    rw [lowerProgram_cons, List.findSome?_cons]
    cases hoversized : s.oversized? with
    | some digits =>
      rw [hoversized] at hs
      simp only [hs]
      rfl
    | none =>
      rw [hoversized] at hs
      obtain ⟨items, hs⟩ := hs
      simp only [hs]
      cases hmore : statements.findSome? Statement.oversized? with
      | some digits =>
        rw [hmore] at ih
        simp only [ih]
        rfl
      | none =>
        rw [hmore] at ih
        obtain ⟨more, ih⟩ := ih
        exact ⟨items ++ more, by rw [ih]; rfl⟩

end AspAtlas.Surface
