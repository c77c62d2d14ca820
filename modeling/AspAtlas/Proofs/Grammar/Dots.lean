import AspAtlas.Proofs.Grammar.Bodies
/-!
The dot at the end of a statement. The grammar takes the first of two dots, where there is no token;
what is left then starts with a dot on both sides, and nothing goes on from there.
-/
namespace AspAtlas.Surface

open Grammar

variable {β : Type} {k : Nat} {b : Expr Rule} {R : View β}

/-- The dot that ends a statement matches where its reader takes one. -/
theorem endDot_tracks (p : Place) : TracksToDot p.tokens.length (.text ".") p
    (fun stop q ps => stop = q.position ∧ ps = []) (endDot p.tokens) := by
  have hpart : UpwardClosed Punct.text Punct.all [.dots, .dot] :=
    closed_symbols (by decide) (by decide) (by decide)
  have hlead : ".".toList = ['.'] := rfl
  rcases Vocabulary.longest?_cases (v := symbols) hpart p with
    ⟨hnone, t, ts, htokens, hother⟩ | ⟨a, ha, q, hsome, hat⟩
  · have hread : endDot (t :: ts) = none := by
      have hdot := hother .dot (by simp)
      have hdots := hother .dots (by simp)
      unfold endDot
      split
      · rename_i he
        cases he
        exact absurd rfl hdot
      · rename_i he
        cases he
        exact absurd rfl hdots
      · rfl
    rw [htokens, hread]
    exact .refused (.noText
      (Vocabulary.afterLead?_eq_none (v := symbols) (a := .dot) hnone (by simp)))
  · have hsplit := hat.split
    obtain rfl | rfl : a = .dots ∨ a = .dot := by simpa using ha
    · have htext : Derives false (.text ".") p.skip
          (some (p.skip.move ".".toList ('.' :: q.rest), [])) :=
        derives_text _ (by rw [hsplit]; rfl)
      rw [hat.tokens]
      exact .taken htext ⟨rfl, rfl⟩ (.dot (q := p.skip.move ".".toList ('.' :: q.rest)) rfl)
    · have htext : Derives false (.text ".") p.skip (some (q, [])) := by
        rw [hat.move]
        exact derives_text _ (by rw [hsplit]; rfl)
      rw [hat.tokens]
      exact .taken htext ⟨rfl, rfl⟩ (.tokens (Nat.lt_succ_self _))

/-- Behind the dot of a statement another part goes on, unless what is left starts with a dot. -/
theorem endDot_bind {f : Position × List Token → Option (β × List Token)} (p : Place)
    (hnext : ∀ q, q.tokens.length < p.tokens.length →
      TracksToDot k b q R (f (q.position, q.tokens)))
    (hstuck : ∀ q cs stop ts, q.rest = '.' :: cs → q.skip = q →
      TracksToDot k b q R (f (q.position, ⟨.punct .dot, q.position, stop⟩ :: ts))) :
    TracksToDot k (.seq (.text ".") b) p R ((endDot p.tokens).bind f) := by
  have hdot := endDot_tracks p
  generalize endDot p.tokens = x at hdot ⊢
  cases hdot with
  | refused h => exact .refused (.noFirst h)
  | @taken stop q ps ts h hview hbehind =>
    obtain ⟨rfl, rfl⟩ := hview
    refine .seq h ?_
    cases hbehind with
    | tokens hlt => exact hnext q hlt
    | @dot cs stop ts hrest =>
      exact hstuck q cs stop ts hrest (Place.skip_of_no_gap (by rw [hrest]; rfl))

end AspAtlas.Surface
