import AspAtlas.Text.Decimal
import Mathlib.Algebra.Group.Nat.Defs
import Mathlib.Tactic.Common
/-!
Decimal digits. A number is what its digits stand for, and digits at the end of a text can be told
from what stands before them.
-/
namespace AspAtlas.Text

theorem isDigit_of_mem_digits {n : Nat} {c : Char} (h : c ∈ Nat.toDigits 10 n) : c.isDigit = true :=
  Nat.isDigit_of_mem_toDigits (by omega) (by omega) h

/-- The number at the end of a text is all that follows the last character which is no digit. -/
theorem append_digits_inj {lead lead' : List Char} {c c' : Char} {m n : Nat}
    (hc : c.isDigit = false) (hc' : c'.isDigit = false)
    (h : lead ++ c :: Nat.toDigits 10 m = lead' ++ c' :: Nat.toDigits 10 n) :
    lead = lead' ∧ c = c' ∧ m = n := by
  have htake {lead : List Char} {c : Char} (hc : c.isDigit = false) (n : Nat) :
      (lead ++ c :: Nat.toDigits 10 n).reverse.takeWhile Char.isDigit =
        (Nat.toDigits 10 n).reverse := by
    rw [List.reverse_append, List.reverse_cons, List.append_assoc, List.takeWhile_append_of_pos]
    · simp [hc]
    · intro d hd
      exact isDigit_of_mem_digits (List.mem_reverse.mp hd)
  have hdigits : Nat.toDigits 10 m = Nat.toDigits 10 n := by
    apply List.reverse_inj.mp
    rw [← htake hc m, ← htake hc' n, h]
  have hlength : (c :: Nat.toDigits 10 m).length = (c' :: Nat.toDigits 10 n).length := by
    rw [List.length_cons, List.length_cons, hdigits]
  obtain ⟨hlead, hrest⟩ := List.append_inj' h hlength
  obtain ⟨hc, -⟩ := List.cons.inj hrest
  refine ⟨hlead, hc, ?_⟩
  calc
    m = Nat.ofDigitChars 10 (Nat.toDigits 10 m) 0 := Nat.ofDigitChars_ten_toDigits.symm
    _ = Nat.ofDigitChars 10 (Nat.toDigits 10 n) 0 := by rw [hdigits]
    _ = n := Nat.ofDigitChars_ten_toDigits

theorem natOf_eq_ofDigitChars (cs : List Char) : natOf cs = Nat.ofDigitChars 10 cs 0 := by
  rw [natOf, Nat.ofDigitChars]
  congr 1
  funext n c
  rw [Nat.mul_comm]
  rfl

theorem natOf_digits (n : Nat) : natOf (Nat.toDigits 10 n) = n := by
  rw [natOf_eq_ofDigitChars, Nat.ofDigitChars_ten_toDigits]

theorem exists_digits_cons (n : Nat) : ∃ c cs, Nat.toDigits 10 n = c :: cs ∧ c.isDigit = true := by
  obtain ⟨c, cs, h⟩ := List.exists_cons_of_ne_nil (Nat.toDigits_ne_nil (n := n) (b := 10))
  exact ⟨c, cs, h, isDigit_of_mem_digits (h ▸ List.mem_cons_self)⟩

/-- Only zero is written with a zero in front. -/
theorem head?_digits_ne_zero {n : Nat} (h : n ≠ 0) : (Nat.toDigits 10 n).head? ≠ some '0' := by
  induction n using Nat.strongRecOn with
  | ind n ih =>
    by_cases hn : n < 10
    · rw [Nat.toDigits_of_lt_base hn, List.head?_cons, Ne, Option.some.injEq, Nat.digitChar_eq_zero]
      exact h
    · have htens : n / 10 ≠ 0 := by omega
      rw [Nat.toDigits_of_base_le (by omega) (by omega), List.head?_append, Option.or_of_isSome]
      · exact ih (n / 10) (by omega) htens
      · rw [List.isSome_head?]
        exact Nat.toDigits_ne_nil

/-- Digits in front of a text that starts with none are all taken. -/
theorem takeWhile_isDigit_append {ds rest : List Char} (hds : ∀ d ∈ ds, d.isDigit = true)
    (hrest : ∀ c, rest.head? = some c → c.isDigit = false) :
    (ds ++ rest).takeWhile Char.isDigit = ds := by
  rw [List.takeWhile_append_of_pos hds]
  cases rest with
  | nil => simp
  | cons c rest => simp [hrest c rfl]

theorem number?_append {width : Nat} {ds rest : List Char} (hds : ∀ d ∈ ds, d.isDigit = true)
    (hne : ds ≠ []) (hfit : ds.length ≤ width)
    (hrest : ds.length = width ∨ ∀ c, rest.head? = some c → c.isDigit = false) :
    number? width (ds ++ rest) = some (natOf ds, rest) := by
  have hstop : ∀ c, (rest.take (width - ds.length)).head? = some c → c.isDigit = false := by
    intro c hc
    rw [List.head?_take] at hc
    split_ifs at hc with hleft
    rcases hrest with hfull | hrest
    · omega
    · exact hrest c hc
  have htake : ((ds ++ rest).take width).takeWhile Char.isDigit = ds := by
    rw [List.take_append, List.take_of_length_le hfit, takeWhile_isDigit_append hds hstop]
  have hsome : ds.isEmpty = false := List.isEmpty_eq_false_iff.mpr hne
  simp only [number?, htake, hsome, Bool.false_eq_true, if_false, List.drop_left]

section Padded

variable {width n : Nat}

theorem toList_padded : (padded width n).toList =
    List.replicate (width - (Nat.toDigits 10 n).length) '0' ++ Nat.toDigits 10 n := by
  simp [padded, Nat.toString_eq_repr, Nat.repr]

theorem isDigit_of_mem_padded {c : Char} (h : c ∈ (padded width n).toList) : c.isDigit = true := by
  rw [toList_padded, List.mem_append, List.mem_replicate] at h
  rcases h with ⟨-, rfl⟩ | h
  · rfl
  · exact isDigit_of_mem_digits h

theorem natOf_padded : natOf (padded width n).toList = n := by
  rw [natOf_eq_ofDigitChars, toList_padded, Nat.ofDigitChars_append,
    Nat.ofDigitChars_replicate_zero, Nat.mul_zero, Nat.ofDigitChars_ten_toDigits]

theorem padded_ne_nil : (padded width n).toList ≠ [] := by
  rw [toList_padded]
  simp

theorem length_padded (hwidth : 0 < width) (h : n < 10 ^ width) :
    (padded width n).toList.length = width := by
  have hle : (Nat.toDigits 10 n).length ≤ width :=
    (Nat.length_toDigits_le_iff (by omega) hwidth).mpr h
  rw [toList_padded, List.length_append, List.length_replicate]
  omega

/-- A number in a field of fixed width is read back, whatever follows. -/
theorem number?_padded {rest : List Char} (hwidth : 0 < width) (h : n < 10 ^ width) :
    number? width ((padded width n).toList ++ rest) = some (n, rest) := by
  have hlength : (padded width n).toList.length = width := length_padded hwidth h
  rw [number?_append (fun _ => isDigit_of_mem_padded) padded_ne_nil (Nat.le_of_eq hlength)
    (.inl hlength), natOf_padded]

end Padded

end AspAtlas.Text
