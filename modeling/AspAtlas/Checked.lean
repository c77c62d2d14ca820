/-!
Operations that have no result where a machine has none: sums that do not fit 64 bits, and the
beginnings of lists that are not so long.
-/
namespace AspAtlas

/-- A number of 64 bits. -/
def IsWord (n : Nat) : Prop := n < 18446744073709551616

instance : DecidablePred IsWord := fun n => inferInstanceAs (Decidable (n < _))

/-- The sum of two numbers, if it has 64 bits. -/
def addWords? (m n : Nat) : Option Nat := if IsWord (m + n) then some (m + n) else none

theorem addWords?_of_isWord {m n : Nat} (h : IsWord (m + n)) : addWords? m n = some (m + n) :=
  if_pos h

/-- The first `n` items of a list, if there are so many. -/
def firstItems? {α : Type} (n : Nat) (xs : List α) : Option (List α) :=
  if n ≤ xs.length then some (xs.take n) else none

theorem firstItems?_of_le {α : Type} {n : Nat} {xs : List α} (h : n ≤ xs.length) :
    firstItems? n xs = some (xs.take n) :=
  if_pos h

/-- The items in front of the first one that fails a test, if the test has a result up to there. -/
def takeWhile? {α : Type} (test? : α → Option Bool) : List α → Option (List α)
  | [] => some []
  | x :: rest =>
    match test? x with
    | some true => (takeWhile? test? rest).map fun taken => x :: taken
    | some false => some []
    | none => none

theorem takeWhile?_eq_some {α : Type} {test? : α → Option Bool} {test : α → Bool} {xs : List α}
    (h : ∀ x ∈ xs, test? x = some (test x)) : takeWhile? test? xs = some (xs.takeWhile test) := by
  induction xs with
  | nil => rfl
  | cons x rest ih =>
    obtain ⟨hx, hrest⟩ := List.forall_mem_cons.mp h
    rw [takeWhile?, hx, List.takeWhile_cons]
    cases test x with
    | true => simp [ih hrest]
    | false => rfl

end AspAtlas
