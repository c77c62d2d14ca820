import AspAtlas.Location
import Mathlib.Order.Basic
/-!
The order of positions in a text: by line, then by column. Every character leads on. Locations of
one file are apart when one ends before the other one begins.
-/
namespace AspAtlas

namespace Position

instance : LT Position := ⟨fun p q => p.line < q.line ∨ p.line = q.line ∧ p.column < q.column⟩

instance : LE Position := ⟨fun p q => p.line < q.line ∨ p.line = q.line ∧ p.column ≤ q.column⟩

theorem lt_iff {p q : Position} :
    p < q ↔ p.line < q.line ∨ p.line = q.line ∧ p.column < q.column := Iff.rfl

theorem le_iff {p q : Position} :
    p ≤ q ↔ p.line < q.line ∨ p.line = q.line ∧ p.column ≤ q.column := Iff.rfl

instance : PartialOrder Position where
  le_refl p := by
    rw [le_iff]
    omega
  le_trans p q r hpq hqr := by
    rw [le_iff] at *
    omega
  lt_iff_le_not_ge p q := by
    rw [lt_iff, le_iff, le_iff]
    omega
  le_antisymm p q hpq hqp := by
    obtain ⟨line, column⟩ := p
    obtain ⟨line', column'⟩ := q
    simp only [le_iff, mk.injEq] at hpq hqp ⊢
    omega

theorem lt_advance (p : Position) (c : Char) : p < p.advance c := by
  rw [lt_iff, advance]
  split
  · exact .inl (Nat.lt_succ_self _)
  · exact .inr ⟨rfl, Nat.lt_succ_self _⟩

end Position

namespace Location

/-- One location begins and ends before another one begins. -/
def Before (a b : Location) : Prop := a.begin < b.begin ∧ a.stop ≤ b.begin

/-- One location does not reach out of another one. -/
def Holds (a b : Location) : Prop := a.begin ≤ b.begin ∧ b.stop ≤ a.stop

theorem Holds.refl (a : Location) : a.Holds a := ⟨le_refl _, le_refl _⟩

theorem Holds.trans {a b c : Location} (h : a.Holds b) (h' : b.Holds c) : a.Holds c :=
  ⟨h.1.trans h'.1, h'.2.trans h.2⟩

end Location

end AspAtlas
