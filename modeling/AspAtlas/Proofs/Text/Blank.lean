import AspAtlas.Text.Blank
import Mathlib.Data.List.Infix
import Mathlib.Data.List.TakeWhile
/-!
Trimming, by what stands at the ends of a text.
-/
namespace AspAtlas.Text

variable {cs : List Char} {c : Char}

/-- A text that does not start with a blank. -/
def OpensPlainly (cs : List Char) : Prop := ∀ c, cs.head? = some c → isBlank c = false

instance : (cs : List Char) → Decidable (OpensPlainly cs)
  | [] => .isTrue nofun
  | c :: _ => decidable_of_iff (isBlank c = false) (by simp [OpensPlainly])

/-- Something of characters that are no blanks, no quotes, and do not bracket or separate
parameters; letters and digits of every script are such characters. -/
def IsPlainWord (cs : List Char) : Prop :=
  cs ≠ [] ∧ ∀ c ∈ cs, isBlank c = false ∧ c ≠ '"' ∧ c ≠ '(' ∧ c ≠ ')' ∧ c ≠ ','

theorem isBlank_of_isAlphanum (h : c.isAlphanum = true) : isBlank c = false := by
  have hkind : (decide (65 ≤ c.val ∧ c.val ≤ 90) || 97 ≤ c.val && c.val ≤ 122 ||
      48 ≤ c.val && c.val ≤ 57) = true := h
  simp only [Bool.or_eq_true, Bool.and_eq_true, decide_eq_true_eq] at hkind
  have hcode : (65 ≤ c.toNat ∧ c.toNat ≤ 90 ∨ 97 ≤ c.toNat ∧ c.toNat ≤ 122) ∨
      48 ≤ c.toNat ∧ c.toNat ≤ 57 := hkind
  simp only [isBlank, Bool.or_eq_false_iff, Bool.and_eq_false_iff, decide_eq_false_iff_not,
    beq_eq_false_iff_ne]
  omega

theorem isBlank_of_isDigit (h : c.isDigit = true) : isBlank c = false :=
  isBlank_of_isAlphanum (by rw [Char.isAlphanum, h, Bool.or_true])

theorem isBlank_of_isAlpha (h : c.isAlpha = true) : isBlank c = false :=
  isBlank_of_isAlphanum (by rw [Char.isAlphanum, h, Bool.true_or])

theorem isPlainWord_of_isAlphanum (hne : cs ≠ []) (h : ∀ c ∈ cs, c.isAlphanum = true) :
    IsPlainWord cs := by
  refine ⟨hne, fun c hc => ⟨isBlank_of_isAlphanum (h c hc), ?_⟩⟩
  have hc := h c hc
  refine ⟨?_, ?_, ?_, ?_⟩ <;> rintro rfl <;> revert hc <;> decide

theorem trimStart_of_head (h : OpensPlainly cs) : trimStart cs = cs := by
  cases cs with
  | nil => rfl
  | cons c cs => simp [trimStart, h c rfl]

theorem opensPlainly_trimStart (cs : List Char) : OpensPlainly (trimStart cs) := by
  intro c hc
  have hnot := List.head?_dropWhile_not isBlank cs
  rw [trimStart] at hc
  simpa [hc] using hnot

theorem trimStart_suffix (cs : List Char) : trimStart cs <:+ cs := List.dropWhile_suffix isBlank

theorem trimEnd_of_last (h : OpensPlainly cs.reverse) : trimEnd cs = cs := by
  have hreverse : cs.reverse.dropWhile isBlank = cs.reverse := trimStart_of_head h
  rw [trimEnd, hreverse, List.reverse_reverse]

/-- A text with no blanks at its ends is trimmed. -/
theorem trim_of_ends (hhead : OpensPlainly cs) (hlast : OpensPlainly cs.reverse) :
    trim cs = cs := by
  rw [trim, trimStart_of_head hhead, trimEnd_of_last hlast]

/-- Blanks in front of a text that does not start with one are dropped, and nothing else is. -/
theorem trimStart_append (before : List Char) (h : OpensPlainly cs) :
    trimStart (before ++ cs) = trimStart before ++ cs := by
  have hcs : cs.dropWhile isBlank = cs := trimStart_of_head h
  rw [trimStart, List.dropWhile_append, hcs]
  split
  · rename_i hnil
    rw [trimStart, List.isEmpty_iff.mp hnil, List.nil_append]
  · rfl

theorem opensPlainly_trim (cs : List Char) :
    OpensPlainly (trim cs) ∧ OpensPlainly (trim cs).reverse := by
  constructor
  · intro c hc
    have hlead : trim cs <+: trimStart cs := by
      have hsuffix := trimStart_suffix (trimStart cs).reverse
      rw [← List.reverse_prefix, List.reverse_reverse] at hsuffix
      exact hsuffix
    obtain ⟨behind, hbehind⟩ := hlead
    refine opensPlainly_trimStart cs c ?_
    rw [← hbehind, List.head?_append, hc, Option.some_or]
  · have hlast := opensPlainly_trimStart (trimStart cs).reverse
    rw [trim, trimEnd, List.reverse_reverse]
    exact hlast

/-- A text is trimmed exactly if it has no blanks at its ends. -/
theorem trim_eq_self_iff : trim cs = cs ↔ OpensPlainly cs ∧ OpensPlainly cs.reverse := by
  constructor
  · intro h
    have hends := opensPlainly_trim cs
    rwa [h] at hends
  · rintro ⟨hhead, hlast⟩
    exact trim_of_ends hhead hlast

theorem trim_cons_of_isBlank (hc : isBlank c = true) (cs : List Char) :
    trim (c :: cs) = trim cs := by
  have hstart : trimStart (c :: cs) = trimStart cs := by
    rw [trimStart, List.dropWhile_cons_of_pos hc]
    rfl
  rw [trim, hstart, ← trim]

/-- Trimming loses blanks only. -/
theorem filter_trim (cs : List Char) :
    (trim cs).filter (fun c => !isBlank c) = cs.filter fun c => !isBlank c := by
  have hstart (ds : List Char) :
      (ds.dropWhile isBlank).filter (fun c => !isBlank c) = ds.filter fun c => !isBlank c := by
    have hlead : (ds.takeWhile isBlank).filter (fun c => !isBlank c) = [] := by
      rw [List.filter_eq_nil_iff]
      intro c hc
      simp [List.mem_takeWhile_imp hc]
    have hsplit := List.filter_append (p := fun c => !isBlank c) (ds.takeWhile isBlank)
      (ds.dropWhile isBlank)
    rw [List.takeWhile_append_dropWhile, hlead, List.nil_append] at hsplit
    exact hsplit.symm
  rw [trim, trimEnd, List.filter_reverse, hstart, ← List.filter_reverse, List.reverse_reverse,
    trimStart, hstart]

theorem trim_append_of_blank {rest : List Char} (h : ∀ c ∈ rest, isBlank c = true) :
    trim (cs ++ rest) = trim cs := by
  have hrest : rest.dropWhile isBlank = [] := List.dropWhile_eq_nil_iff.mpr h
  rw [trim, trimStart, List.dropWhile_append, hrest]
  split
  · rename_i hnil
    rw [trim, trimStart, List.isEmpty_iff.mp hnil]
  · have hreverse : rest.reverse.dropWhile isBlank = [] :=
      List.dropWhile_eq_nil_iff.mpr fun c hc => h c (List.mem_reverse.mp hc)
    rw [trim, trimStart, trimEnd, trimEnd, List.reverse_append, List.dropWhile_append, hreverse]
    rfl

/-- What follows a text changes nothing of it when trimmed exactly if it is blank. -/
theorem trim_append_eq_iff {rest : List Char} :
    trim (cs ++ rest) = trim cs ↔ ∀ c ∈ rest, isBlank c = true := by
  constructor
  · intro h c hc
    have hfilter := congrArg (List.filter fun c => !isBlank c) h
    rw [filter_trim, filter_trim, List.filter_append, List.append_right_eq_self,
      List.filter_eq_nil_iff] at hfilter
    simpa using hfilter c hc
  · exact trim_append_of_blank

theorem ne_nil_of_trim (h : (trim cs).isEmpty = false) : cs ≠ [] := by
  rintro rfl
  cases h

theorem OpensPlainly.append (h : OpensPlainly cs) (hne : cs ≠ []) (rest : List Char) :
    OpensPlainly (cs ++ rest) := by
  intro c hc
  rw [List.head?_append_of_ne_nil _ hne] at hc
  exact h c hc

theorem opensPlainly_of_append {rest : List Char} (hne : cs ≠ []) (h : OpensPlainly (cs ++ rest)) :
    OpensPlainly cs := by
  intro c hc
  refine h c ?_
  rw [List.head?_append_of_ne_nil _ hne, hc]

namespace IsPlainWord

theorem opensPlainly (h : IsPlainWord cs) : OpensPlainly cs :=
  fun c hc => (h.2 c (List.mem_of_head? hc)).1

theorem opensPlainly_reverse (h : IsPlainWord cs) : OpensPlainly cs.reverse :=
  fun c hc => (h.2 c (List.mem_reverse.mp (List.mem_of_head? hc))).1

theorem trim_eq (h : IsPlainWord cs) : trim cs = cs :=
  trim_of_ends h.opensPlainly h.opensPlainly_reverse

theorem not_mem_of_isBlank (h : IsPlainWord cs) (hc : isBlank c = true) : c ∉ cs := by
  intro hmem
  rw [(h.2 c hmem).1] at hc
  cases hc

end IsPlainWord

/-- A plain word behind a blank is all that trimming leaves. -/
theorem trim_blank_cons (h : IsPlainWord cs) (hc : isBlank c = true) : trim (c :: cs) = cs := by
  rw [trim_cons_of_isBlank hc, h.trim_eq]

end AspAtlas.Text
