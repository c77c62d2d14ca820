import AspAtlas.Proofs.Directive.Parameters
/-!
Which texts are lists of parameters. A text is read exactly if it is raw parameters with
commas between them, a closing parenthesis and a tail, and there is at most one such way to
cut it. What a raw parameter is can be said by scanning it: how many parentheses are open
outside of quotes at each place.
-/
namespace AspAtlas.DirectiveExtractor

open Text (trim)

/-- Where a scan of a text stands: how many parentheses are open, less than none when too many were
closed, and whether a quote is open. Parentheses in quotes do not count. -/
structure Standing where
  depth : Int := 0
  inQuotes : Bool := false
deriving DecidableEq

namespace Standing

/-- Where the scan stands behind one more character. -/
def step (s : Standing) (c : Char) : Standing :=
  if c = '"' then { s with inQuotes := !s.inQuotes }
  else if s.inQuotes then s
  else if c = '(' then { s with depth := s.depth + 1 }
  else if c = ')' then { s with depth := s.depth - 1 }
  else s

/-- A text leads from where the scan stands to no open parenthesis or quote, closes no parenthesis
that is not open, and has no comma where none is open and no quote is. -/
structure Settles (s : Standing) (cs : List Char) : Prop where
  settled : cs.foldl step s = {}
  opened : ∀ n, 0 ≤ ((cs.take n).foldl step s).depth
  enclosed : ∀ n, cs[n]? = some ',' → (cs.take n).foldl step s ≠ {}

end Standing

/-- A text that is one parameter as it stands between separators, by how a scan of it stands. -/
abbrev IsRawParameter (cs : List Char) : Prop := Standing.Settles {} cs

/-- A text is some raw parameters with commas between them, the closing parenthesis, and a tail. -/
structure Cuts (text : List Char) (raws : List (List Char)) (tail : List Char) : Prop where
  nonempty : raws ≠ []
  raw : ∀ raw ∈ raws, IsRawParameter raw
  text : text = [','].intercalate raws ++ ')' :: tail

variable {depth : Nat} {inQuotes : Bool} {s : Standing} {parameters raws raws' : List (List Char)}
  {c c' : Char} {cs cs' rest rest' text tail tail' raw current : List Char}
  {done : List (List Char)}

namespace Standing

theorem settles_nil_iff : Settles s [] ↔ s = {} := by
  constructor
  · intro h
    exact h.settled
  · intro h
    subst h
    constructor <;> intros <;> simp_all

/-- A text settles a scan exactly if its first character may stand there and the others settle what
is left. -/
theorem settles_cons_iff :
    Settles s (c :: cs) ↔ 0 ≤ s.depth ∧ (c = ',' → s ≠ {}) ∧ Settles (s.step c) cs := by
  constructor
  · intro h
    refine ⟨h.opened 0, ?_, h.settled, ?_, ?_⟩
    · intro hc
      exact h.enclosed 0 (congrArg some hc)
    · intro n
      exact h.opened (n + 1)
    · intro n
      exact h.enclosed (n + 1)
  · rintro ⟨hopened, henclosed, h⟩
    refine ⟨h.settled, ?_, ?_⟩
    · intro n
      cases n with
      | zero => exact hopened
      | succ n => exact h.opened n
    · intro n hn
      cases n with
      | zero => exact henclosed (Option.some.inj hn)
      | succ n => exact h.enclosed n hn

instance decidableSettles : (s : Standing) → (cs : List Char) → Decidable (Settles s cs)
  | _, [] => decidable_of_iff _ settles_nil_iff.symm
  | s, c :: cs =>
    have := decidableSettles (s.step c) cs
    decidable_of_iff _ settles_cons_iff.symm

@[simp] theorem step_quote (s : Standing) : s.step '"' = { s with inQuotes := !s.inQuotes } := rfl

@[simp] theorem step_open (depth : Int) : step ⟨depth, false⟩ '(' = ⟨depth + 1, false⟩ := rfl

@[simp] theorem step_close (depth : Int) : step ⟨depth, false⟩ ')' = ⟨depth - 1, false⟩ := rfl

theorem step_quoted (depth : Int) (hc : c ≠ '"') : step ⟨depth, true⟩ c = ⟨depth, true⟩ := by
  simp [step, hc]

theorem step_other (depth : Int) (hc : c ≠ '"' ∧ c ≠ '(' ∧ c ≠ ')') :
    step ⟨depth, false⟩ c = ⟨depth, false⟩ := by
  simp [step, hc]

/-- A raw parameter does not go on behind what could end it. -/
theorem Settles.not_longer (h : Settles s cs) (hc : c = ',' ∨ c = ')') :
    ¬ Settles s (cs ++ c :: rest) := by
  intro hlonger
  have hat : (cs ++ c :: rest).take cs.length = cs := List.take_left
  rcases hc with rfl | rfl
  · apply hlonger.enclosed cs.length
    · simp
    · rw [hat, h.settled]
  · have hopened := hlonger.opened (cs.length + 1)
    rw [List.take_length_add_append, List.foldl_append, h.settled] at hopened
    revert hopened
    simp

end Standing

/-- What completes a parameter settles the scan of it. -/
theorem settles_of_raw (h : Raw depth inQuotes cs) : Standing.Settles ⟨depth, inQuotes⟩ cs := by
  have hnat (n : Nat) : (0 : Int) ≤ n := Int.natCast_nonneg n
  induction h with
  | done => exact Standing.settles_nil_iff.mpr rfl
  | quote h ih =>
    refine Standing.settles_cons_iff.mpr ⟨hnat _, by simp, ?_⟩
    rw [Standing.step_quote]
    exact ih
  | quoted hc h ih =>
    refine Standing.settles_cons_iff.mpr ⟨hnat _, by simp, ?_⟩
    rw [Standing.step_quoted _ hc]
    exact ih
  | opened h ih =>
    refine Standing.settles_cons_iff.mpr ⟨hnat _, by simp, ?_⟩
    rw [Standing.step_open]
    exact ih
  | @closed depth cs h ih =>
    refine Standing.settles_cons_iff.mpr ⟨hnat _, by simp, ?_⟩
    have hdepth : ((depth + 1 : Nat) : Int) - 1 = depth := by omega
    rw [Standing.step_close, hdepth]
    exact ih
  | @enclosed depth cs h ih =>
    refine Standing.settles_cons_iff.mpr ⟨hnat _, ?_, ih⟩
    intro _ he
    have hdepth : ((depth + 1 : Nat) : Int) = 0 := congrArg Standing.depth he
    omega
  | other hc h ih =>
    obtain ⟨hquote, hopen, hclose, hcomma⟩ := hc
    refine Standing.settles_cons_iff.mpr ⟨hnat _, fun he => absurd he hcomma, ?_⟩
    rw [Standing.step_other _ ⟨hquote, hopen, hclose⟩]
    exact ih

theorem raw_of_settles (h : Standing.Settles ⟨depth, inQuotes⟩ cs) : Raw depth inQuotes cs := by
  induction cs generalizing depth inQuotes with
  | nil =>
    have hs := Standing.settles_nil_iff.mp h
    simp only [Standing.mk.injEq, Int.natCast_eq_zero] at hs
    obtain ⟨rfl, rfl⟩ := hs
    exact .done
  | cons c cs ih =>
    obtain ⟨-, hcomma, hrest⟩ := Standing.settles_cons_iff.mp h
    by_cases hquote : c = '"'
    · subst hquote
      exact .quote (ih hrest)
    cases inQuotes with
    | true =>
      rw [Standing.step_quoted _ hquote] at hrest
      exact .quoted hquote (ih hrest)
    | false =>
      by_cases hopen : c = '('
      · subst hopen
        exact .opened (ih hrest)
      by_cases hclose : c = ')'
      · subst hclose
        rw [Standing.step_close] at hrest
        have hopened : 0 ≤ (depth : Int) - 1 := hrest.opened 0
        obtain ⟨n, rfl⟩ : ∃ n, depth = n + 1 := ⟨depth - 1, by omega⟩
        have hdepth : ((n + 1 : Nat) : Int) - 1 = n := by omega
        rw [hdepth] at hrest
        exact .closed (ih hrest)
      rw [Standing.step_other _ ⟨hquote, hopen, hclose⟩] at hrest
      by_cases hsep : c = ','
      · subst hsep
        cases depth with
        | zero => exact absurd rfl (hcomma rfl)
        | succ n => exact .enclosed (ih hrest)
      · exact .other ⟨hquote, hopen, hclose, hsep⟩ (ih hrest)

theorem isRaw_iff : IsRaw cs ↔ IsRawParameter cs :=
  ⟨settles_of_raw, raw_of_settles⟩

/-- What is left of a list of parameters, of which some are done and one is current: a text that
completes the current one, and raw parameters behind separators. -/
def Remains (depth : Nat) (inQuotes : Bool) (current : List Char) (done : List (List Char))
    (cs : List Char) (parameters : List (List Char)) (tail : List Char) : Prop :=
  ∃ (raw : List Char) (raws : List (List Char)), Raw depth inQuotes raw ∧
    (∀ raw ∈ raws, IsRaw raw) ∧ cs = raw ++ (raws.flatMap (',' :: ·) ++ ')' :: tail) ∧
    parameters = done.reverse ++
      trim (current.reverse ++ unquoted raw) :: raws.map fun raw => trim (unquoted raw)

/-- A character that is read into the current parameter. -/
theorem Remains.push {depth' : Nat} {inQuotes' : Bool} (hc : c ≠ '"')
    (hraw : ∀ raw, Raw depth' inQuotes' raw → Raw depth inQuotes (c :: raw))
    (h : Remains depth' inQuotes' (c :: current) done cs parameters tail) :
    Remains depth inQuotes current done (c :: cs) parameters tail := by
  obtain ⟨raw, raws, hfirst, hothers, hcs, hparameters⟩ := h
  refine ⟨c :: raw, raws, hraw raw hfirst, hothers, ?_, ?_⟩
  · rw [hcs, List.cons_append]
  · rw [hparameters, unquoted_cons_of_ne hc, List.reverse_cons, List.append_assoc,
      List.singleton_append]

/-- Only lists of raw parameters are read. -/
theorem remains_of_splitFrom
    (h : splitFrom ⟨depth, inQuotes, current, done⟩ cs = some (parameters, tail)) :
    Remains depth inQuotes current done cs parameters tail := by
  induction cs generalizing depth inQuotes current done with
  | nil => cases h
  | cons c cs ih =>
    rw [splitFrom] at h
    by_cases hquote : c = '"'
    · subst hquote
      obtain ⟨raw, raws, hfirst, hothers, hcs, hparameters⟩ := ih h
      refine ⟨'"' :: raw, raws, .quote hfirst, hothers, ?_, hparameters⟩
      rw [hcs, List.cons_append]
    rw [if_neg hquote] at h
    cases inQuotes with
    | true => exact (ih h).push hquote fun _ => .quoted hquote
    | false =>
      rw [if_neg Bool.false_ne_true] at h
      by_cases hopen : c = '('
      · subst hopen
        exact (ih h).push hquote fun _ => .opened
      rw [if_neg hopen] at h
      by_cases hclose : c = ')'
      · subst hclose
        rw [if_pos rfl] at h
        cases depth with
        | zero =>
          cases h
          exact ⟨[], [], .done, by simp, rfl, by simp [Scan.finish, unquoted]⟩
        | succ n => exact (ih h).push hquote fun _ => .closed
      rw [if_neg hclose] at h
      by_cases hcomma : c = ','
      · subst hcomma
        cases depth with
        | zero =>
          rw [if_pos ⟨rfl, rfl⟩] at h
          obtain ⟨raw, raws, hfirst, hothers, hcs, hparameters⟩ := ih h
          refine ⟨[], raw :: raws, .done, List.forall_mem_cons.mpr ⟨hfirst, hothers⟩, ?_, ?_⟩
          · rw [hcs]
            simp
          · rw [hparameters]
            simp [unquoted]
        | succ n =>
          rw [if_neg fun hsep => Nat.succ_ne_zero n hsep.2] at h
          exact (ih h).push hquote fun _ => .enclosed
      · rw [if_neg fun hsep => hcomma hsep.1] at h
        exact (ih h).push hquote fun _ => .other ⟨hquote, hopen, hclose, hcomma⟩

theorem intercalate_cons (raw : List Char) (raws : List (List Char)) :
    [','].intercalate (raw :: raws) = raw ++ raws.flatMap (',' :: ·) := by
  induction raws generalizing raw with
  | nil => simp
  | cons next raws ih =>
    rw [List.intercalate_cons_cons, ih]
    simp

namespace Cuts

instance : Decidable (Cuts text raws tail) :=
  decidable_of_iff (raws ≠ [] ∧ (∀ raw ∈ raws, IsRawParameter raw) ∧
    text = [','].intercalate raws ++ ')' :: tail)
    ⟨fun h => ⟨h.1, h.2.1, h.2.2⟩, fun h => ⟨h.nonempty, h.raw, h.text⟩⟩

theorem cons_iff : Cuts text (raw :: raws) tail ↔ IsRawParameter raw ∧
    (∀ raw ∈ raws, IsRawParameter raw) ∧ text = raw ++
    (raws.flatMap (',' :: ·) ++ ')' :: tail) := by
  rw [← List.append_assoc, ← intercalate_cons]
  constructor
  · intro h
    obtain ⟨hfirst, hothers⟩ := List.forall_mem_cons.mp h.raw
    exact ⟨hfirst, hothers, h.text⟩
  · rintro ⟨hfirst, hothers, htext⟩
    exact ⟨List.cons_ne_nil _ _, List.forall_mem_cons.mpr ⟨hfirst, hothers⟩, htext⟩

/-- A text that is cut is read as the raw parameters, trimmed and without quotes. -/
theorem splitParameters_eq (h : Cuts text raws tail) :
    splitParameters text = some (raws.map fun raw => trim (unquoted raw), tail) := by
  cases raws with
  | nil => exact absurd rfl h.nonempty
  | cons raw raws =>
    obtain ⟨hfirst, hothers, rfl⟩ := cons_iff.mp h
    exact splitParameters_raws (isRaw_iff.mpr hfirst)
      (fun raw hraw => isRaw_iff.mpr (hothers raw hraw)) tail

end Cuts

/-- A text that is read can be cut. -/
theorem exists_cuts_of_splitParameters (h : splitParameters text = some (parameters, tail)) :
    ∃ raws, Cuts text raws tail ∧ parameters = raws.map fun raw => trim (unquoted raw) := by
  obtain ⟨raw, raws, hfirst, hothers, htext, hparameters⟩ := remains_of_splitFrom h
  refine ⟨raw :: raws, ?_, hparameters⟩
  exact Cuts.cons_iff.mpr
    ⟨isRaw_iff.mp hfirst, fun raw hraw => isRaw_iff.mp (hothers raw hraw), htext⟩

/-- What ends a raw parameter is the first separator or closing parenthesis that can. -/
theorem eq_of_stops (h : IsRawParameter cs) (h' : IsRawParameter cs') (hc : c = ',' ∨ c = ')')
    (hc' : c' = ',' ∨ c' = ')') (he : cs ++ c :: rest = cs' ++ c' :: rest') :
    cs = cs' ∧ c = c' ∧ rest = rest' := by
  rcases List.append_eq_append_iff.mp he with ⟨more, hmore, hrest⟩ | ⟨more, hmore, hrest⟩
  · cases more with
    | nil => simp_all
    | cons d more =>
      obtain ⟨rfl, -⟩ := List.cons.inj hrest
      rw [hmore] at h'
      exact absurd h' (h.not_longer hc)
  · cases more with
    | nil => simp_all
    | cons d more =>
      obtain ⟨rfl, -⟩ := List.cons.inj hrest
      rw [hmore] at h
      exact absurd h (h'.not_longer hc')

/-- The first raw parameter is followed by the closing parenthesis or by
a separator and the others. -/
theorem Cuts.exists_stop (h : Cuts text (raw :: raws) tail) : IsRawParameter raw ∧
    ∃ c rest, text = raw ++ c :: rest ∧
      (c = ')' ∧ raws = [] ∧ rest = tail ∨ c = ',' ∧ Cuts rest raws tail) := by
  obtain ⟨hfirst, hothers, htext⟩ := cons_iff.mp h
  refine ⟨hfirst, ?_⟩
  cases raws with
  | nil => exact ⟨')', tail, htext, .inl ⟨rfl, rfl, rfl⟩⟩
  | cons next raws =>
    obtain ⟨hnext, hothers⟩ := List.forall_mem_cons.mp hothers
    refine ⟨',', next ++ (raws.flatMap (',' :: ·) ++ ')' :: tail), ?_, .inr ⟨rfl, ?_⟩⟩
    · rw [htext]
      simp
    · exact cons_iff.mpr ⟨hnext, hothers, rfl⟩

/-- There is at most one way to cut a text. -/
theorem Cuts.unique (h : Cuts text raws tail) (h' : Cuts text raws' tail') :
    raws = raws' ∧ tail = tail' := by
  induction raws generalizing text raws' with
  | nil => exact absurd rfl h.nonempty
  | cons raw raws ih =>
    cases raws' with
    | nil => exact absurd rfl h'.nonempty
    | cons raw' raws' =>
      obtain ⟨hraw, c, rest, htext, hstop⟩ := h.exists_stop
      obtain ⟨hraw', c', rest', htext', hstop'⟩ := h'.exists_stop
      have hc : c = ',' ∨ c = ')' := hstop.elim (fun h => .inr h.1) fun h => .inl h.1
      have hc' : c' = ',' ∨ c' = ')' := hstop'.elim (fun h => .inr h.1) fun h => .inl h.1
      obtain ⟨rfl, rfl, rfl⟩ := eq_of_stops hraw hraw' hc hc' (htext.symm.trans htext')
      rcases hstop with ⟨rfl, rfl, rfl⟩ | ⟨rfl, hothers⟩
      · rcases hstop' with ⟨-, rfl, rfl⟩ | ⟨hne, -⟩
        · exact ⟨rfl, rfl⟩
        · exact absurd hne (by decide)
      · rcases hstop' with ⟨hne, -⟩ | ⟨-, hothers'⟩
        · exact absurd hne (by decide)
        · obtain ⟨rfl, rfl⟩ := ih hothers hothers'
          exact ⟨rfl, rfl⟩

/-- A text is read as parameters and a tail exactly if it can be cut into raw parameters in front of
this tail, the parameters being what these are without quotes, trimmed; it is not read exactly if it
cannot be cut. A text can be cut in one way only. -/
theorem splitParameters_accepts_cuts (text : List Char) :
    (∀ parameters tail, splitParameters text = some (parameters, tail) ↔
        ∃ raws, Cuts text raws tail ∧ parameters = raws.map fun raw => trim (unquoted raw)) ∧
      (splitParameters text = none ↔ ¬ ∃ raws tail, Cuts text raws tail) ∧
      ∀ raws tail raws' tail', Cuts text raws tail → Cuts text raws' tail' →
        raws = raws' ∧ tail = tail' := by
  refine ⟨?_, ?_, fun raws tail raws' tail' => Cuts.unique⟩
  · intro parameters tail
    constructor
    · exact exists_cuts_of_splitParameters
    · rintro ⟨raws, hcuts, rfl⟩
      exact hcuts.splitParameters_eq
  · constructor
    · rintro hnone ⟨raws, tail, hcuts⟩
      rw [hcuts.splitParameters_eq] at hnone
      cases hnone
    · intro hnone
      cases h : splitParameters text with
      | none => rfl
      | some found =>
        obtain ⟨raws, hcuts, -⟩ := exists_cuts_of_splitParameters h
        exact absurd ⟨raws, _, hcuts⟩ hnone

/-- Two parameters in front of a description: a parenthesis in quotes, a comma in quotes and one in
parentheses. -/
def nested : List Char := "f(X,\")\"), \"ü,(\"é )->t".toList

/-- Parentheses in quotes do not close, and commas in quotes or parentheses do not separate. -/
theorem splitParameters_accepts_cuts_of_nested :
    Cuts nested ["f(X,\")\")".toList, " \"ü,(\"é ".toList] "->t".toList ∧
      splitParameters nested = some (["f(X,))".toList, "ü,(é".toList], "->t".toList) ∧
      ∀ raws tail, Cuts nested raws tail →
        raws = ["f(X,\")\")".toList, " \"ü,(\"é ".toList] ∧ tail = "->t".toList := by
  obtain ⟨hread, -, hunique⟩ := splitParameters_accepts_cuts nested
  have hcuts : Cuts nested ["f(X,\")\")".toList, " \"ü,(\"é ".toList] "->t".toList := by
    decide
  refine ⟨hcuts, (hread _ _).mpr ⟨_, hcuts, by decide⟩, ?_⟩
  intro raws tail h
  exact hunique _ _ _ _ h hcuts

end AspAtlas.DirectiveExtractor
