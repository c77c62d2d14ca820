import AspAtlas.Proofs.Grammar.Determinism
import AspAtlas.Proofs.Grammar.Statements
import AspAtlas.Reader.Source
/-!
Programs: a text has statements if and only if the grammar matches it, and what the
grammar matches lowers to the items of the statements. So the only fault that lowering
finds is an arity that is too large.
-/
namespace AspAtlas.Grammar

/-- The arity that the match of a statement declares if it is too large. -/
def Pair.oversized? (pair : Pair) : Option String := pair.arity?.filter Surface.isOversized

/-- The first arity that is too large in the match of a program. -/
def firstOversized? (pairs : List Pair) : Option String :=
  pairs.head?.bind fun program => program.inner.findSome? Pair.oversized?

end AspAtlas.Grammar

namespace AspAtlas.Surface

open Grammar

variable {file : Path} {m n : Nat} {e b : Expr Rule} {p q : Place} {ps xs : List Pair}

theorem no_finish (h : p.rest ≠ []) : Derives false (.rule .finish) p none := .noRule (.noFinish h)

/-- No statement starts at a dot. -/
theorem no_statement_at_dot {cs : List Char} (hrest : q.rest = '.' :: cs) :
    Derives false Grammar.statement q.skip none := by
  have hpart : UpwardClosed Punct.text Punct.all [.dots, .dot] :=
    closed_symbols (by decide) (by decide) (by decide)
  have hskip : q.skip.rest = (symbols.text .dot).toList ++ cs := by
    rw [Place.skip_of_no_gap (by rw [hrest]; rfl), hrest]
    rfl
  obtain ⟨s, hs, r, hat⟩ := Vocabulary.exists_at hpart (by simp) hskip
  have hstatement := statement_tracks ⟨""⟩ (Nat.le_refl (2 * (q.tokens.length + 1)))
    (Nat.lt_succ_self _)
  have hnone : statement (2 * (q.tokens.length + 1)) q.tokens = none := by
    rw [hat.tokens]
    refine statement_stuck ?_
    obtain rfl | rfl : s = .dots ∨ s = .dot := by simpa using hs
    · exact .inr (.inl rfl)
    · exact .inl rfl
  rw [hnone] at hstatement
  cases hstatement with
  | refused h => exact h

/-- A repetition that goes on behind one match does so in front of it, too. -/
theorem derives_rep_cons {s : Place} {ys : List Pair} (ha : Derives false e p (some (q, xs)))
    (h : Derives false (.rep e) q.skip (some (s, ys))) :
    ∃ t, Derives false (.rep e) p (some (t, xs ++ ys)) ∧ t.pause false = s.pause false := by
  cases h with
  | never h =>
    refine ⟨q, ?_, q.pause_skip.symm⟩
    rw [List.append_nil]
    exact .last ha h
  | last h hb => exact ⟨s, .again ha h (.last h hb), rfl⟩
  | again h hb hmore => exact ⟨s, .again ha h (.again h hb hmore), rfl⟩

theorem derives_rep_seq_cons {found : Option (Place × List Pair)}
    (ha : Derives false e p (some (q, xs))) (h : Derives false (.seq (.rep e) b) q.skip found) :
    Derives false (.seq (.rep e) b) p (found.map fun s => (s.1, xs ++ s.2)) := by
  cases h with
  | noFirst h => cases h
  | noSecond h hb =>
    obtain ⟨t, hrep, hpause⟩ := derives_rep_cons ha h
    exact .noSecond hrep (by rwa [hpause])
  | seq h hb =>
    obtain ⟨t, hrep, hpause⟩ := derives_rep_cons ha h
    rw [Option.map_some, ← List.append_assoc]
    exact .seq hrep (by rwa [hpause])

/-- What a place and the statements read from there have to do with each other. -/
inductive ProgramTracks (file : Path) (p : Place) (done : List Statement) :
    Option (List Statement) → Prop
  | refused (h : Derives false (.seq (.rep Grammar.statement) (.rule .finish)) p.skip none) :
      ProgramTracks file p done none
  | taken {more : List Statement} {q : Place} {ps : List Pair} {last : Pair}
      (hlast : last.rule = .finish) (hall : ManyView (StatementView file) more ps)
      (h : Derives false (.seq (.rep Grammar.statement) (.rule .finish)) p.skip
        (some (q, ps ++ [last]))) :
      ProgramTracks file p done (some (done.reverse ++ more))

theorem statementsFrom_tracks (file : Path) {k : Nat} (hn : 2 * m ≤ n) (hp : p.tokens.length < m)
    (hk : p.tokens.length ≤ k) (done : List Statement) :
    ProgramTracks file p done (statementsFrom n k p.tokens done) := by
  induction k generalizing p done with
  | zero =>
    have hpos := List.length_pos_iff.mpr p.tokens_ne_nil
    omega
  | succ k ih =>
    have hstatement := statement_tracks file hn hp
    rcases finish_cases p with ⟨htokens, last, hlast, hfinish⟩ | ⟨t, ts, htokens, ht, hnot⟩
    · have hnone : statement n p.tokens = none := by
        rw [htokens]
        exact statement_stuck (.inr (.inr rfl))
      rw [hnone] at hstatement
      cases hstatement with
      | refused h =>
        have hdone : statementsFrom n (k + 1) p.tokens done = some (done.reverse ++ []) := by
          rw [htokens, List.append_nil]
          rfl
        have hend : Derives false (.rule .finish) (p.skip.pause false) (some (p.skip, [last])) := by
          rwa [p.pause_skip]
        rw [hdone]
        exact .taken hlast .nil (.seq (.never h) hend)
    · have hstep : statementsFrom n (k + 1) (t :: ts) done = _ := statementsFrom_step ht
      rw [← htokens] at hstep
      rw [hstep]
      generalize statement n p.tokens = x at hstatement ⊢
      cases hstatement with
      | refused h =>
        exact .refused (.noSecond (.never h) (by rwa [p.pause_skip]))
      | @taken s q xs us h hview hbehind =>
        dsimp only
        cases hbehind with
        | tokens hlt =>
          have hmore := ih (p := q) (by omega) (by omega) (s :: done)
          generalize statementsFrom n k q.tokens (s :: done) = y at hmore
          cases hmore with
          | refused hmore => exact .refused (derives_rep_seq_cons h hmore)
          | taken hlast hall hmore =>
            have hder := derives_rep_seq_cons h hmore
            rw [Option.map_some, ← List.append_assoc] at hder
            rw [List.reverse_cons, List.append_assoc]
            exact .taken hlast (.cons hview hall) hder
        | dot hrest =>
          -- the second of two dots starts no statement
          rw [statementsFrom_dot rfl]
          have hne : q.rest ≠ [] := by simp [hrest]
          have hend : Derives false (.rule .finish) (q.skip.pause false) none := by
            rw [q.pause_skip, Place.skip_of_no_gap (by rw [hrest]; rfl)]
            exact no_finish hne
          have hnone : Derives false (.seq (.rep Grammar.statement) (.rule .finish)) q.skip none :=
            .noSecond (.never (no_statement_at_dot hrest)) hend
          exact .refused (derives_rep_seq_cons h hnone)

/-- What a text has to do with the match of a program there. -/
inductive TextTracks (file : Path) (text : String) : Option (List Statement) → Prop
  | refused (h : Derives false (.rule .program) (.start text.toList) none) :
      TextTracks file text none
  | taken {statements : List Statement} {q : Place} {program last : Pair} {ps : List Pair}
      (hinner : program.inner = ps ++ [last]) (hlast : last.rule = .finish)
      (hall : ManyView (StatementView file) statements ps)
      (h : Derives false (.rule .program) (.start text.toList) (some (q, [program]))) :
      TextTracks file text (some statements)

/-- A text has statements if and only if it matches the grammar of programs. -/
theorem parse?_tracks (file : Path) (text : String) : TextTracks file text (parse? text) := by
  have hstart : Derives false (.text "") (.start text.toList) (some (.start text.toList, [])) :=
    derives_text text.toList rfl
  have hread := statementsFrom_tracks file
    (Nat.le_refl (2 * ((Place.start text.toList).tokens.length + 1)))
    (Nat.lt_succ_self _) (Nat.le_succ (Place.start text.toList).tokens.length) []
  have hparse : parse? text = statementsFrom (2 * ((Place.start text.toList).tokens.length + 1))
      ((Place.start text.toList).tokens.length + 1) (Place.start text.toList).tokens [] := rfl
  rw [hparse]
  generalize statementsFrom _ _ (Place.start text.toList).tokens [] = x at hread
  cases hread with
  | refused h => exact .refused (.noRule (.noSecond hstart h))
  | taken hlast hall h => exact .taken rfl hlast hall (.rule (.seq hstart h))

theorem parse?_isSome_iff (text : String) : (parse? text).isSome ↔
    ∃ q pairs, Derives false (.rule .program) (.start text.toList) (some (q, pairs)) := by
  have hread := parse?_tracks ⟨""⟩ text
  generalize parse? text = x at hread
  cases hread with
  | refused h => simpa using fun q pairs hsome => absurd (h.unique hsome) (by simp)
  | taken hinner hlast hall h => exact ⟨fun _ => ⟨_, _, h⟩, fun _ => rfl⟩

theorem itemsUpToEnd_eq {statements : List Statement} {last : Pair} (hlast : last.rule = .finish)
    (h : ManyView (StatementView file) statements ps) :
    Pair.itemsUpToEnd file (ps ++ [last]) = (lowerProgram file statements).mapError .arity := by
  induction h with
  | nil => simp [Pair.itemsUpToEnd, hlast, lowerProgram, Except.mapError]; rfl
  | @cons s q _ more qs h hmore ih =>
    obtain ⟨pair, rfl, hrule, -, hitems⟩ := h
    rw [List.append_assoc, List.singleton_append, Pair.itemsUpToEnd, if_neg hrule, hitems, ih,
      lowerProgram_cons]
    cases s.lower file with
    | error digits => rfl
    | ok items => cases lowerProgram file more <;> rfl

theorem findSome?_oversized {statements : List Statement} {last : Pair}
    (hlast : last.rule = .finish) (h : ManyView (StatementView file) statements ps) :
    (ps ++ [last]).findSome? Pair.oversized? = statements.findSome? Statement.oversized? := by
  induction h with
  | nil => simp [Pair.oversized?, Pair.arity?, hlast]
  | @cons s q _ more qs h hmore ih =>
    obtain ⟨pair, rfl, -, harity, -⟩ := h
    have hpair : pair.oversized? = s.oversized? := by
      rw [Pair.oversized?, harity, Statement.oversized?]
    rw [List.append_assoc, List.singleton_append, List.findSome?_cons,
      List.findSome?_cons, hpair, ih]

end AspAtlas.Surface

namespace AspAtlas

open Grammar Surface

/-- Lowering what the grammar matches fails on the first declared arity that is too large, and on
nothing else; and a file then has the items found, or that fault. -/
theorem parseItems_of_match (file : Path) {text : String} {q : Place} {pairs : List Pair}
    (h : Derives false (.rule .program) (.start text.toList) (some (q, pairs))) :
    match firstOversized? pairs with
    | none => ∃ items, lowerPairs file pairs = .ok items ∧ parseItems file text = .ok items
    | some digits => lowerPairs file pairs = .error (.arity digits) ∧
        parseItems file text = .error (.parse file (.arity digits)) := by
  have hread := parse?_tracks file text
  generalize hparse : parse? text = x at hread
  cases hread with
  | refused hnone => exact absurd (h.unique hnone) (by simp)
  | @taken statements r program last ps hinner hlast hall hprogram =>
    obtain ⟨rfl, rfl⟩ : q = r ∧ pairs = [program] := by simpa using h.unique hprogram
    have hfirst : firstOversized? [program] = statements.findSome? Statement.oversized? := by
      simp only [firstOversized?, List.head?_cons, Option.bind_some, hinner]
      exact findSome?_oversized hlast hall
    have hlower : lowerPairs file [program] = (lowerProgram file statements).mapError .arity := by
      simp only [lowerPairs, Pair.program, hinner]
      exact itemsUpToEnd_eq hlast hall
    have hcases := lowerProgram_cases file statements
    rw [hfirst, hlower, parseItems, hparse]
    cases hoversized : statements.findSome? Statement.oversized? with
    | none =>
      rw [hoversized] at hcases
      obtain ⟨items, hitems⟩ := hcases
      exact ⟨items, by rw [hitems]; rfl, by simp only [hitems]⟩
    | some digits =>
      rw [hoversized] at hcases
      exact ⟨by rw [hcases]; rfl, by simp only [hcases]⟩

theorem parseItems_of_declarations :
    ∃ q pairs, Derives false (.rule .program)
        (.start "#show a/1. #defined p/18446744073709551616. #show q/99999999999999999999.".toList)
        (some (q, pairs)) ∧
      lowerPairs ⟨"a.lp"⟩ pairs = .error (.arity "18446744073709551616") ∧
      parseItems ⟨"a.lp"⟩
      "#show a/1. #defined p/18446744073709551616. #show q/99999999999999999999." =
        .error (.parse ⟨"a.lp"⟩ (.arity "18446744073709551616")) := by
  have hdigits :
      (parse? "#show a/1. #defined p/18446744073709551616. #show q/99999999999999999999.").bind
        (fun statements => statements.findSome? Statement.oversized?) =
      some "18446744073709551616" := by
    decide +kernel
  obtain ⟨statements, hparse, hoversized⟩ := Option.bind_eq_some_iff.mp hdigits
  have hcases := lowerProgram_cases ⟨"a.lp"⟩ statements
  rw [hoversized] at hcases
  have hitems : parseItems
      ⟨"a.lp"⟩ "#show a/1. #defined p/18446744073709551616. #show q/99999999999999999999." =
      .error (.parse ⟨"a.lp"⟩ (.arity "18446744073709551616")) := by
    simp only [parseItems, hparse, hcases]
  have hread := parse?_tracks
    ⟨"a.lp"⟩ "#show a/1. #defined p/18446744073709551616. #show q/99999999999999999999."
  rw [hparse] at hread
  cases hread with
  | @taken _ q program last ps hinner hlast hall h =>
    have hmatch := parseItems_of_match ⟨"a.lp"⟩ h
    refine ⟨q, [program], h, ?_, hitems⟩
    rw [hitems] at hmatch
    split at hmatch
    · obtain ⟨items, -, hok⟩ := hmatch
      cases hok
    · obtain ⟨hlower, herror⟩ := hmatch
      rw [hlower]
      simp only [Except.error.injEq, Error.parse.injEq, ParseCause.arity.injEq, true_and] at herror
      rw [herror]

end AspAtlas
