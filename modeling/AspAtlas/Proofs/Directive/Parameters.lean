import AspAtlas.Directive.Extract
import AspAtlas.Proofs.Text.Blank
import Mathlib.Data.List.Count
/-!
Lists of parameters. In a raw parameter quotes and parentheses pair off, and commas stand only
inside of them. Raw parameters with commas between them are read as what they are without quotes,
trimmed, up to the parenthesis that closes the list.
-/
namespace AspAtlas.DirectiveExtractor

open Text (trim IsPlainWord)

/-- A text that completes a parameter of which some has been read: so many parentheses are open, and
a quote is open or not. -/
inductive Raw : Nat → Bool → List Char → Prop
  | done : Raw 0 false []
  | quote {depth : Nat} {inQuotes : Bool} {cs : List Char} (h : Raw depth (!inQuotes) cs) :
      Raw depth inQuotes ('"' :: cs)
  | quoted {depth : Nat} {c : Char} {cs : List Char} (hc : c ≠ '"') (h : Raw depth true cs) :
      Raw depth true (c :: cs)
  | opened {depth : Nat} {cs : List Char} (h : Raw (depth + 1) false cs) :
      Raw depth false ('(' :: cs)
  | closed {depth : Nat} {cs : List Char} (h : Raw depth false cs) :
      Raw (depth + 1) false (')' :: cs)
  | enclosed {depth : Nat} {cs : List Char} (h : Raw (depth + 1) false cs) :
      Raw (depth + 1) false (',' :: cs)
  | other {depth : Nat} {c : Char} {cs : List Char}
      (hc : c ≠ '"' ∧ c ≠ '(' ∧ c ≠ ')' ∧ c ≠ ',') (h : Raw depth false cs) :
      Raw depth false (c :: cs)

/-- A text that is one parameter as it stands between separators. -/
abbrev IsRaw (cs : List Char) : Prop := Raw 0 false cs

/-- A text without its quotes. -/
def unquoted (cs : List Char) : List Char := cs.filter (· ≠ '"')

/-- A text without quotes that closes so many parentheses and those it opens itself, never more than
are open, and has commas only where some are open. -/
structure Closes (depth : Nat) (cs : List Char) : Prop where
  plain : '"' ∉ cs
  paired : cs.count ')' = depth + cs.count '('
  opened : ∀ n, (cs.take n).count ')' ≤ depth + (cs.take n).count '('
  enclosed : ∀ n, cs[n]? = some ',' → (cs.take n).count ')' < depth + (cs.take n).count '('

/-- Parentheses pair off, every comma stands in parentheses, and there are no quotes. -/
abbrev IsBalanced (cs : List Char) : Prop := Closes 0 cs

variable {depth : Nat} {inQuotes : Bool} {scan : Scan} {parameters : List (List Char)}
  {c : Char} {cs word rest tail : List Char}

theorem unquoted_of_not_mem (h : '"' ∉ cs) : unquoted cs = cs := by
  rw [unquoted, List.filter_eq_self]
  intro c hc
  have hne : c ≠ '"' := fun he => h (he ▸ hc)
  simpa using hne

theorem unquoted_cons_of_ne (h : c ≠ '"') : unquoted (c :: cs) = c :: unquoted cs := by
  rw [unquoted, List.filter_cons_of_pos (by simpa using h)]
  rfl

/-- A raw parameter is read into the present parameter, without its quotes. -/
theorem splitFrom_raw (h : Raw depth inQuotes cs) (current : List Char) (done : List (List Char))
    (rest : List Char) : splitFrom ⟨depth, inQuotes, current, done⟩ (cs ++ rest) =
      splitFrom ⟨0, false, (unquoted cs).reverse ++ current, done⟩ rest := by
  induction h generalizing current with
  | done => rfl
  | quote h ih =>
    rw [List.cons_append, splitFrom, if_pos rfl, ih]
    rfl
  | quoted hc h ih =>
    rw [List.cons_append, splitFrom, if_neg hc, if_pos rfl, Scan.push, ih, unquoted_cons_of_ne hc,
      List.reverse_cons, List.append_assoc, List.singleton_append]
  | opened h ih =>
    rw [List.cons_append, splitFrom]
    simp [Scan.push, ih, unquoted_cons_of_ne]
  | closed h ih =>
    rw [List.cons_append, splitFrom]
    simp [Scan.push, ih, unquoted_cons_of_ne]
  | enclosed h ih =>
    rw [List.cons_append, splitFrom]
    simp [Scan.push, ih, unquoted_cons_of_ne]
  | other hc h ih =>
    obtain ⟨hquote, hopen, hclose, hcomma⟩ := hc
    rw [List.cons_append, splitFrom, if_neg hquote, if_neg Bool.false_ne_true, if_neg hopen,
      if_neg hclose, if_neg fun hsep => hcomma hsep.1, Scan.push, ih, unquoted_cons_of_ne hquote,
      List.reverse_cons, List.append_assoc, List.singleton_append]

/-- Raw parameters behind separators, up to the closing parenthesis. -/
theorem splitFrom_raws {raws : List (List Char)} (h : ∀ raw ∈ raws, IsRaw raw) (current : List Char)
    (done : List (List Char)) (rest : List Char) :
    splitFrom ⟨0, false, current, done⟩ (raws.flatMap (',' :: ·) ++ ')' :: rest) =
      some (done.reverse ++ trim current.reverse ::
        raws.map fun raw => trim (unquoted raw), rest) := by
  induction raws generalizing current done with
  | nil => simp [splitFrom, Scan.finish]
  | cons raw raws ih =>
    obtain ⟨hraw, hraws⟩ := List.forall_mem_cons.mp h
    have hcomma (cs : List Char) : splitFrom ⟨0, false, current, done⟩ (',' :: cs) =
        splitFrom ⟨0, false, [], trim current.reverse :: done⟩ cs := by
      rw [splitFrom]
      simp [Scan.finish]
    rw [List.flatMap_cons, List.cons_append, List.cons_append, hcomma, List.append_assoc,
      splitFrom_raw hraw, ih hraws]
    simp

/-- A list of raw parameters in parentheses is read as these parameters. -/
theorem splitParameters_raws {raw : List Char} {raws : List (List Char)} (hraw : IsRaw raw)
    (hraws : ∀ raw ∈ raws, IsRaw raw) (rest : List Char) :
    splitParameters (raw ++ (raws.flatMap (',' :: ·) ++ ')' :: rest)) =
      some ((raw :: raws).map fun raw => trim (unquoted raw), rest) := by
  rw [splitParameters, splitFrom_raw hraw, splitFrom_raws hraws]
  simp

theorem splitFrom_suffix (h : splitFrom scan cs = some (parameters, tail)) : tail <:+ cs := by
  fun_induction splitFrom scan cs
  case case1 => cases h
  case case5 =>
    cases h
    exact List.suffix_cons _ _
  case case2 ih | case3 ih | case4 ih | case6 ih | case7 ih | case8 ih =>
    exact (ih h).trans (List.suffix_cons _ _)

/-- A text without special characters in front of a raw one is raw. -/
theorem Raw.append_plain (h : Raw depth false cs)
    (hword : ∀ c ∈ word, c ≠ '"' ∧ c ≠ '(' ∧ c ≠ ')' ∧ c ≠ ',') : Raw depth false (word ++ cs) := by
  induction word with
  | nil => exact h
  | cons c word ih =>
    obtain ⟨hc, hword⟩ := List.forall_mem_cons.mp hword
    exact .other hc (ih hword)

/-- One word in parentheses is one parameter. -/
theorem splitParameters_word (h : IsPlainWord word) (rest : List Char) :
    splitParameters (word ++ ')' :: rest) = some ([word], rest) := by
  have hraw : IsRaw (word ++ []) := Raw.append_plain .done fun c hc => (h.2 c hc).2
  have hplain : '"' ∉ word := fun hmem => (h.2 '"' hmem).2.1 rfl
  rw [List.append_nil] at hraw
  have hnone : ∀ raw ∈ ([] : List (List Char)), IsRaw raw := nofun
  have hsplit := splitParameters_raws hraw hnone rest
  rwa [List.flatMap_nil, List.nil_append, List.map_singleton, unquoted_of_not_mem hplain,
    h.trim_eq] at hsplit

/-- Anything but quotes may stand in quotes. -/
theorem isRaw_quoted (h : '"' ∉ cs) : IsRaw ('"' :: (cs ++ ['"'])) := by
  refine .quote ?_
  induction cs with
  | nil => exact .quote .done
  | cons c cs ih =>
    have hc : c ≠ '"' := (List.ne_of_not_mem_cons h).symm
    exact .quoted hc (ih (List.not_mem_of_not_mem_cons h))

namespace Closes

instance : Decidable (Closes depth cs) :=
  decidable_of_iff ('"' ∉ cs ∧ cs.count ')' = depth + cs.count '(' ∧
    (∀ n < cs.length + 1, (cs.take n).count ')' ≤ depth + (cs.take n).count '(') ∧
      ∀ n < cs.length, cs[n]? = some ',' →
        (cs.take n).count ')' < depth + (cs.take n).count '(') <| by
    constructor
    · rintro ⟨hplain, hpaired, hopened, henclosed⟩
      refine ⟨hplain, hpaired, fun n => ?_, fun n hn => ?_⟩
      · by_cases hlength : n ≤ cs.length
        · exact hopened n (by omega)
        · rw [List.take_of_length_le (by omega)]
          omega
      · exact henclosed n (List.getElem?_eq_some_iff.mp hn).1 hn
    · intro h
      exact ⟨h.plain, h.paired, fun n _ => h.opened n, fun n _ => h.enclosed n⟩

/-- What is left behind a character closes what is open there. -/
theorem of_cons {depth' : Nat} (h : Closes depth (c :: cs))
    (hdepth : depth' + [c].count ')' = depth + [c].count '(') : Closes depth' cs := by
  have hcount (bracket : Char) (before : List Char) :
      (c :: before).count bracket = [c].count bracket + before.count bracket := by
    rw [← List.singleton_append, List.count_append]
  constructor
  · exact List.not_mem_of_not_mem_cons h.plain
  · have hpaired := h.paired
    rw [hcount ')' cs, hcount '(' cs] at hpaired
    omega
  · intro n
    have hopened := h.opened (n + 1)
    rw [List.take_succ_cons, hcount ')', hcount '('] at hopened
    omega
  · intro n hn
    have henclosed := h.enclosed (n + 1) hn
    rw [List.take_succ_cons, hcount ')', hcount '('] at henclosed
    omega

/-- A closing parenthesis or a comma stands where one is open. -/
theorem exists_succ (h : Closes depth (c :: cs)) (hc : c = ')' ∨ c = ',') : ∃ n, depth = n + 1 := by
  refine ⟨depth - 1, ?_⟩
  rcases hc with rfl | rfl
  · have hopened : 1 ≤ depth + 0 := h.opened 1
    omega
  · have henclosed : 0 < depth + 0 := h.enclosed 0 rfl
    omega

theorem raw (h : Closes depth cs) : Raw depth false cs := by
  induction cs generalizing depth with
  | nil =>
    have hdepth : depth = 0 := h.paired.symm
    subst hdepth
    exact .done
  | cons c cs ih =>
    by_cases hopen : c = '('
    · subst hopen
      exact .opened (ih (h.of_cons rfl))
    by_cases hclose : c = ')'
    · subst hclose
      obtain ⟨n, rfl⟩ := h.exists_succ (.inl rfl)
      exact .closed (ih (h.of_cons rfl))
    have hkept : Raw depth false cs := by
      apply ih
      apply h.of_cons
      rw [List.count_singleton, List.count_singleton]
      simp [hopen, hclose]
    by_cases hcomma : c = ','
    · subst hcomma
      obtain ⟨n, rfl⟩ := h.exists_succ (.inr rfl)
      exact .enclosed hkept
    · exact .other ⟨(List.ne_of_not_mem_cons h.plain).symm, hopen, hclose, hcomma⟩ hkept

end Closes
end AspAtlas.DirectiveExtractor
