import AspAtlas.Proofs.Surface.RereadingAssertions
/-!
Reading written literals, conditions and elements. Blanks stand only behind separators, so that each
part is read on its own; what is read mentions the same as what was written.
-/
namespace AspAtlas.Surface

open Node

variable {n : Nat} {t : Token} {ts us vs rest : List Token} {l : Lexeme} {ls : List Lexeme}
    {file other : Path}

section Lists

variable {α β : Type} {item : Nat → Reader α} {ends outer : List Punct} {s : Punct} {P : α → Prop}
  {R : β → α → Prop} {text : β → List Char} {bs : List β}

/-- Units that are read as one construct with a property, in front of some symbols. -/
def Rereads (item : Nat → Reader α) (ends : List Punct) (P : α → Prop) (ls : List Lexeme) : Prop :=
  ∀ n ts rest, 2 * ls.length + 3 ≤ n → ts.map Token.lexeme = ls → OpensWith ends rest →
    ∃ x, item n (ts ++ rest) = some (x, rest) ∧ P x

/-- Units that are read as constructs behind separators, one for each of those written. -/
def RereadsFurther (item : Nat → Reader α) (s : Punct) (outer : List Punct) (R : β → α → Prop)
    (bs : List β) (ls : List Lexeme) : Prop :=
  ∀ n m ts rest accept, 2 * ls.length + 3 ≤ n → ls.length ≤ m → ts.map Token.lexeme = ls →
    OpensWith outer rest → accept s = true → (∀ r ∈ outer, accept r = false) →
    (∃ xs, further m accept (item n) (ts ++ rest) = (xs, rest) ∧ List.Forall₂ R bs xs) ∧
      OpensWith (s :: outer) (ts ++ rest)

/-- A symbol with a blank behind it. -/
def spaced (s : Punct) : List Char := s.text.toList ++ [' ']

theorem cutOff_spaced (h : (Lexeme.punct s).goesOn ' ' = false) : CutOff (spaced s) [.punct s] :=
  .word (punct_spelled s) h

theorem stopsWords_spaced (s : Punct) (cs : List Char) : StopsWords (spaced s ++ cs) := by
  obtain ⟨d, ds, hds, hd⟩ := toList_punct s
  rw [spaced, hds]
  rintro e ⟨⟩
  exact hd.notWord

theorem OpensWith.head {b e : Position} (hs : s ∈ ends) : OpensWith ends (⟨.punct s, b, e⟩ :: ts) :=
  ⟨s, hs, b, e, ts, rfl⟩

theorem further_of_opensWith {m : Nat} {accept : Punct → Bool} {item : Reader α}
    (h : OpensWith outer rest)
    (hstop : ∀ r ∈ outer, accept r = false) : further m accept item rest = ([], rest) :=
  further_of_past (h.past _ hstop) fun _ hr => hr

theorem rereadsFurther_nil : RereadsFurther item s outer R [] [] := by
  intro n m ts rest accept _ _ hts hrest _ hstop
  obtain rfl : ts = [] := by simpa using hts
  exact ⟨⟨[], further_of_opensWith hrest hstop, .nil⟩,
    hrest.mono fun r hr => List.mem_cons_of_mem s hr⟩

theorem rereadsFurther_cons {b : β} {a : List Lexeme} (hends : ∀ r ∈ s :: outer, r ∈ ends)
    (hb : Rereads item ends (R b) a) (hbs : RereadsFurther item s outer R bs ls) :
    RereadsFurther item s outer R (b :: bs) (.punct s :: (a ++ ls)) := by
  intro n m ts rest accept hn hm hts hrest haccept hstop
  obtain ⟨b', e', us₁, rfl, hus₁⟩ := exists_token hts
  obtain ⟨us, vs, rfl, hus, hvs⟩ := exists_tokens hus₁
  simp only [List.length_cons, List.length_append] at hn hm
  obtain ⟨m, rfl⟩ := Nat.exists_eq_add_one_of_ne_zero (by omega : m ≠ 0)
  obtain ⟨⟨xs, hxs, hall⟩, hopens⟩ :=
    hbs n m vs rest accept (by omega) (by omega) hvs hrest haccept hstop
  obtain ⟨x, hx, hR⟩ := hb n us (vs ++ rest) (by omega) hus (hopens.mono hends)
  rw [further] at hxs
  refine ⟨⟨x :: xs, ?_, .cons hR hall⟩, .head List.mem_cons_self⟩
  simp [further, many, after, punctWith, haccept, hx, hxs]

/-- Constructs with separators in front of them. -/
theorem exists_further (s : Punct) (outer : List Punct)
    (hblank : (Lexeme.punct s).goesOn ' ' = false) (hends : ∀ r ∈ s :: outer, r ∈ ends)
    (h : ∀ b ∈ bs, ∃ ls, CutInto (text b) ls ∧ Rereads item ends (R b) ls) :
    ∃ ls, CutInto (bs.flatMap fun b => spaced s ++ text b) ls ∧
      StopsWords (bs.flatMap fun b => spaced s ++ text b) ∧
        RereadsFurther item s outer R bs ls := by
  induction bs with
  | nil => exact ⟨[], fun _ _ => rfl, by simp [StopsWords], rereadsFurther_nil⟩
  | cons b bs ih =>
    obtain ⟨a, hcut, hb⟩ := h b List.mem_cons_self
    obtain ⟨ls, hcuts, hstops, hbs⟩ := ih fun b' hb' => h b' (List.mem_cons_of_mem b hb')
    refine ⟨_, ?_, ?_, rereadsFurther_cons hends hb hbs⟩
    · rw [List.flatMap_cons, List.append_assoc]
      exact (cutOff_spaced hblank).append_cutInto (hcut.append hcuts hstops)
    · rw [List.flatMap_cons, List.append_assoc]
      exact stopsWords_spaced s _

/-- A construct and further ones behind separators. -/
theorem exists_row {text : β → String} {b : β} (s : Punct) (outer : List Punct)
    (hblank : (Lexeme.punct s).goesOn ' ' = false) (hends : ∀ r ∈ s :: outer, r ∈ ends)
    (h : ∀ x ∈ b :: bs, ∃ ls, CutInto (text x).toList ls ∧ Rereads item ends (R x) ls) :
    ∃ ls, CutInto ((s.text ++ " ").intercalate ((b :: bs).map text)).toList ls ∧
      ∀ n ts rest accept, 2 * ls.length + 3 ≤ n → ts.map Token.lexeme = ls → OpensWith outer rest →
        accept s = true → (∀ r ∈ outer, accept r = false) →
        ∃ x xs left, item n (ts ++ rest) = some (x, left) ∧
        further n accept (item n) left = (xs, rest) ∧
          List.Forall₂ R (b :: bs) (x :: xs) := by
  obtain ⟨a, ha, hfirst⟩ := h b List.mem_cons_self
  obtain ⟨ls, hcut, hstops, hmore⟩ :=
    exists_further s outer hblank hends fun x hx => h x (List.mem_cons_of_mem b hx)
  refine ⟨a ++ ls, ?_, fun n ts rest accept hn hts hrest haccept hstop => ?_⟩
  · rw [List.map_cons, toList_intercalate_cons, List.flatMap_map, String.toList_append]
    exact ha.append hcut hstops
  · obtain ⟨us, vs, rfl, hus, hvs⟩ := exists_tokens hts
    rw [List.length_append] at hn
    obtain ⟨⟨xs, hxs, hall⟩, hopens⟩ :=
      hmore n n vs rest accept (by omega) (by omega) hvs hrest haccept hstop
    obtain ⟨x, hx, hR⟩ := hfirst n us (vs ++ rest) (by omega) hus (hopens.mono hends)
    exact ⟨x, xs, vs ++ rest, by rwa [List.append_assoc], hxs, .cons hR hall⟩

end Lists

section Literals

/-- The units of some negations. -/
def Negations.units : Negations → List Lexeme
  | none => []
  | once => [.identifier "not"]
  | twice => [.identifier "not", .identifier "not"]

theorem Negations.cutOff_lead (sign : Negations) : CutOff sign.sign.lead.toList sign.units := by
  have hnot : CutOff "not ".toList [.identifier "not"] := CutOff.word spelled_not (by decide)
  cases sign with
  | none => exact fun _ => rfl
  | once => exact hnot
  | twice => exact hnot.append hnot

theorem negator_eq_none (h : t.lexeme ≠ .identifier "not") : negator (t :: ts) = none := by
  obtain ⟨lexeme, b, e⟩ := t
  unfold negator
  split
  · simp_all
  · rfl

/-- Negations are read up to the first unit that is none, or the third one. -/
theorem negations_units {sign : Negations} (hts : ts.map Token.lexeme = sign.units)
    (hrest : sign = .twice ∨ ∃ t us, rest = t :: us ∧ t.lexeme ≠ .identifier "not") :
    negations (ts ++ rest) = (sign, rest) := by
  cases sign with
  | none =>
    obtain rfl : ts = [] := by simpa [Negations.units] using hts
    obtain ⟨t, us, rfl, ht⟩ := hrest.resolve_left (by simp)
    exact negations_of_ne ht
  | once =>
    obtain ⟨b, e, rfl⟩ := exists_lone_token hts
    obtain ⟨t, us, rfl, ht⟩ := hrest.resolve_left (by simp)
    have hnone : negator (t :: us) = none := negator_eq_none ht
    have honce : negator ([⟨.identifier "not", b, e⟩] ++ t :: us) = some ((), t :: us) := rfl
    simp only [negations, honce, hnone]
  | twice =>
    obtain ⟨b, e, vs, rfl, hvs⟩ := exists_token hts
    obtain ⟨b', e', rfl⟩ := exists_lone_token hvs
    rfl

/-- Units that neither a choice nor an aggregate starts with. -/
def Plain (ls : List Lexeme) : Prop :=
  ∀ n ts rest, 2 * ls.length + 3 ≤ n → ts.map Token.lexeme = ls → OpensWith literalEnds rest →
    choice n (ts ++ rest) = none ∧ aggregate n (ts ++ rest) = none

theorem AssertionReads.negated {P : Assertion → Prop} (h : AssertionReads P ls) (sign : Negations)
    (hfirst : sign = .twice ∨ ls.head? ≠ some (.identifier "not")) :
    Rereads literal literalEnds (fun l => P l.assertion) (sign.units ++ ls) ∧
      Plain (sign.units ++ ls) := by
  have hread (n : Nat) (ts us rest : List Token) (hts : ts.map Token.lexeme = sign.units)
      (hus : us.map Token.lexeme = ls) (hrest : OpensWith literalEnds rest) :
      negations (ts ++ (us ++ rest)) = (sign, us ++ rest) := by
    refine negations_units hts (hfirst.imp_right fun hne => ?_)
    cases us with
    | nil =>
      obtain ⟨s, -, b, e, more, rfl⟩ := hrest
      exact ⟨_, more, rfl, by simp⟩
    | cons t us =>
      refine ⟨t, us ++ rest, rfl, fun he => hne ?_⟩
      rw [← hus, List.map_cons, List.head?_cons, he]
  constructor
  · intro n ts rest hn hts hrest
    obtain ⟨nots, us, rfl, hnots, hus⟩ := exists_tokens hts
    rw [List.length_append] at hn
    obtain ⟨⟨a, ha, hP⟩, -⟩ := h n us rest (by omega) hus hrest
    have hsign := hread n nots us rest hnots hus hrest
    rw [List.append_assoc]
    exact ⟨⟨⟨beginOf (nots ++ (us ++ rest)), a.span.stop⟩, sign, a⟩,
      by simp [literal, hsign, ha], hP⟩
  · intro n ts rest hn hts hrest
    obtain ⟨nots, us, rfl, hnots, hus⟩ := exists_tokens hts
    rw [List.length_append] at hn
    obtain ⟨-, hunbraced, hnot⟩ := h n us rest (by omega) hus hrest
    rw [List.append_assoc]
    refine ⟨Unbraced.choice ?_, hunbraced.aggregate (hread n nots us rest hnots hus hrest)⟩
    cases sign with
    | none =>
      obtain rfl : nots = [] := by simpa [Negations.units] using hnots
      exact hunbraced
    | once =>
      obtain ⟨b, e, rfl⟩ := exists_lone_token hnots
      exact hnot b e
    | twice =>
      obtain ⟨b, e, vs, rfl, hvs⟩ := exists_token hnots
      obtain ⟨b', e', ws, rfl, hws⟩ := exists_token hvs
      refine unbraced_not ?_ rfl (by omega)
      rintro s hs
      cases hs

/-- Literals from whose text no constant is lost to the negations. -/
def Literal.Prints (file : Path) (l : Literal) : Prop :=
  l.assertion.LosesNot file → l.negations = .twice

/-- The reading of a literal's text. -/
structure Literal.Reread (l : Literal) (file : Path) (P : Literal → Prop)
    (ls : List Lexeme) : Prop where
  cut : CutInto (l.lower file).render.toList ls
  starts : ∃ x more, ls = x :: more ∧ x.startsLiteral = true ∧
    (x = .punct .minus → (l.lower file).render.toList.head? = some '-')
  reads : Rereads literal literalEnds P ls
  plain : Plain ls

theorem Literal.render_lower (l : Literal) :
    (l.lower file).render = l.negations.sign.lead ++ (l.assertion.lower file).render := by
  rw [Literal.lower, render_literal rfl, textOf, node?_withNode]
  rfl

theorem Literal.mentions_lower {l l' : Literal}
    (h : (l'.assertion.lower other).mentions = (l.assertion.lower file).mentions) :
    (l'.lower other).mentions = (l.lower file).mentions := by
  refine mentions_congr rfl (by simp [Literal.lower]) fun f hf => ?_
  obtain rfl : f = .atom := by simpa [Literal.lower, NodeKind.childFields] using hf
  simp [Literal.lower, h]

/-- What a literal is read back as; one negation more may have been taken from its assertion. -/
theorem Literal.exists_reread {l : Literal} (h : l.Proper) (hprints : l.Prints file)
    (other : Path) :
    ∃ ls, l.Reread file (fun l' => (l'.lower other).mentions = (l.lower file).mentions) ls := by
  obtain ⟨ls, hls⟩ := Assertion.exists_reread h.assertion file other
  obtain ⟨x, more, rfl, hx⟩ := hls.starts
  have htext : (l.lower file).render.toList = l.negations.sign.lead.toList ++
      chars (x :: more) := by
    rw [l.render_lower, String.toList_append, hls.text]
  have hsame {us : List Lexeme} (h : Rereads literal literalEnds
      (fun l' => (l'.assertion.lower other).mentions = (l.assertion.lower file).mentions) us) :
      Rereads literal literalEnds
        (fun l' => (l'.lower other).mentions = (l.lower file).mentions) us := by
    intro n ts rest hn hts hrest
    obtain ⟨l', hl', hP⟩ := h n ts rest hn hts hrest
    exact ⟨l', hl', Literal.mentions_lower hP⟩
  have hreads : Rereads literal literalEnds
      (fun l' => (l'.lower other).mentions = (l.lower file).mentions)
      (l.negations.units ++ x :: more) ∧ Plain (l.negations.units ++ x :: more) := by
    by_cases hnot : x = .identifier "not"
    · subst hnot
      rcases hls.behindNot rfl with hloses | ⟨behind, hbehind, hfirst, hreads⟩
      · exact (hls.reads.negated _ (.inl (hprints hloses))).imp_left hsame
      · obtain rfl : more = behind := (List.cons.inj hbehind).2
        cases hsign : l.negations with
        | none => exact (hreads.negated .once (.inr hfirst)).imp_left hsame
        | once => exact (hreads.negated .twice (.inl rfl)).imp_left hsame
        | twice => exact (hls.reads.negated _ (.inl rfl)).imp_left hsame
    · exact (hls.reads.negated _ (.inr (by simpa using hnot))).imp_left hsame
  refine ⟨l.negations.units ++ x :: more, ?_, ?_, hreads.1, hreads.2⟩
  · rw [htext]
    exact l.negations.cutOff_lead.append_cutInto hls.cut
  · cases hsign : l.negations with
    | none =>
      refine ⟨x, more, rfl, hx, ?_⟩
      rintro rfl
      rw [htext, hsign]
      rfl
    | once | twice => exact ⟨_, _, rfl, rfl, by simp⟩

end Literals

section Conditions

/-- What follows an element with its condition. -/
def elementEnds : List Punct := [.semicolon, .closeBrace, .ifThen, .dot]

/-- The text of a condition behind its element. -/
def conditionTextOf (file : Path) (condition : List Literal) : String :=
  if condition.isEmpty then ""
    else ": " ++ ", ".intercalate (condition.map fun l => (l.lower file).render)

/-- Conditions whose text is that of a condition: their first literal does
not start with a minus sign. -/
structure PrintsCondition (file : Path) (condition : List Literal) : Prop where
  literals : ∀ l ∈ condition, l.Prints file
  first : ∀ l ∈ condition.head?, (l.lower file).render.toList.head? ≠ some '-'

/-- Literals that mention the same, one by one. -/
def LiteralsMatch (file other : Path) : List Literal → List Literal → Prop :=
  List.Forall₂ fun l l' => (l'.lower other).mentions = (l.lower file).mentions

theorem LiteralsMatch.lowerCondition {condition found : List Literal}
    (h : LiteralsMatch file other condition found) :
    mentionsOf (lowerCondition other found) = mentionsOf (lowerCondition file condition) :=
  (mentionsOf_map (h.imp fun _ _ he => he.symm)).symm

theorem separator_of_startsLiteral {b e : Position} (ht : t.lexeme.startsLiteral = true)
    (hminus : t.lexeme ≠ .punct .minus) :
    separator (⟨.punct .colon, b, e⟩ :: t :: ts) = some ((), t :: ts) := by
  obtain ⟨lexeme, b', e'⟩ := t
  cases lexeme with
  | punct s =>
    have hs : s ≠ .minus := by rintro rfl; exact hminus rfl
    cases s <;> first | exact absurd rfl hs | simp [separator, punct]
  | stray c => cases ht
  | _ => simp [separator, punct]

/-- A condition is read as literals that mention the same. -/
theorem exists_condition {first : Literal} {more : List Literal}
    (hproper : ∀ l ∈ first :: more, l.Proper)
    (hprints : PrintsCondition file (first :: more)) (other : Path) :
    ∃ ls, CutInto (conditionTextOf file (first :: more)).toList (.punct .colon :: ls) ∧
      Rereads condition elementEnds (fun x => LiteralsMatch file other (first :: more) x.1)
        (.punct .colon :: ls) := by
  obtain ⟨a, ha⟩ := Literal.exists_reread (hproper first List.mem_cons_self)
    (hprints.literals first List.mem_cons_self) other
  obtain ⟨x, xs, rfl, hx, hxminus⟩ := ha.starts
  have hminus : x ≠ .punct .minus := fun he => hprints.first first rfl (hxminus he)
  have hbehind (l : Literal) (hl : l ∈ more) : ∃ ls, CutInto (l.lower file).render.toList ls ∧
      Rereads literal literalEnds
        (fun l' => (l'.lower other).mentions = (l.lower file).mentions) ls := by
    obtain ⟨us, hus⟩ := Literal.exists_reread (hproper l (List.mem_cons_of_mem first hl))
      (hprints.literals l (List.mem_cons_of_mem first hl)) other
    exact ⟨us, hus.cut, hus.reads⟩
  obtain ⟨ls, hcut, hstops, hmore⟩ :=
    exists_further .comma elementEnds (by decide) (by decide) hbehind
  refine ⟨x :: xs ++ ls, ?_, ?_⟩
  · have htext : (conditionTextOf file (first :: more)).toList = spaced .colon ++
        ((first.lower file).render.toList ++
        more.flatMap fun l => spaced .comma ++ (l.lower file).render.toList) := by
      rw [conditionTextOf, if_neg (by simp), String.toList_append, List.map_cons,
        toList_intercalate_cons, List.flatMap_map]
      rfl
    rw [htext]
    exact (cutOff_spaced (by decide)).append_cutInto (ha.cut.append hcut hstops)
  · intro n ts rest hn hts hrest
    obtain ⟨b, e, us₁, rfl, hus₁⟩ := exists_token hts
    obtain ⟨us, vs, rfl, hus, hvs⟩ := exists_tokens hus₁
    obtain ⟨b', e', us, rfl, -⟩ := exists_token hus
    simp only [List.length_cons, List.length_append] at hn
    obtain ⟨⟨others, hothers, hall⟩, hopens⟩ :=
      hmore n n vs rest (· = .comma) (by omega) (by omega) hvs hrest rfl (by decide)
    obtain ⟨l', hl', hsame⟩ :=
      ha.reads n (⟨x, b', e'⟩ :: us) (vs ++ rest) (by simp only [List.length_cons]; omega) hus
        (hopens.mono (by decide))
    have hseparator : separator (⟨.punct .colon, b, e⟩ :: ⟨x, b', e'⟩ :: (us ++ (vs ++ rest))) =
        some ((), ⟨x, b', e'⟩ :: (us ++ (vs ++ rest))) := separator_of_startsLiteral hx hminus
    refine ⟨(l' :: others, endOf (·.span.stop) others (vs ++ rest)), ?_, .cons hsame hall⟩
    simp only [List.cons_append] at hl'
    simp [condition, hseparator, hl', hothers]

theorem stopsWords_conditionTextOf (condition : List Literal) :
    StopsWords (conditionTextOf file condition).toList := by
  rw [conditionTextOf]
  split
  · simp [StopsWords]
  · rw [String.toList_append]
    exact stopsWords_spaced .colon _

/-- Units that are read as a condition, possibly an empty one. -/
def RereadsCondition (file other : Path) (condition : List Literal) (ls : List Lexeme) : Prop :=
  ∀ n ts rest, 2 * ls.length + 3 ≤ n → ts.map Token.lexeme = ls → OpensWith elementEnds rest →
    (∃ found stop, condition? n (ts ++ rest) = ((found, stop), rest) ∧
      LiteralsMatch file other condition found) ∧ OpensWith (.colon :: elementEnds) (ts ++ rest)

theorem exists_condition? {condition : List Literal} (hproper : ∀ l ∈ condition, l.Proper)
    (hprints : PrintsCondition file condition) (other : Path) :
    ∃ ls, CutInto (conditionTextOf file condition).toList ls ∧
      RereadsCondition file other condition ls := by
  cases condition with
  | nil =>
    refine ⟨[], fun _ _ => rfl, fun n ts rest _ hts hrest => ?_⟩
    obtain rfl : ts = [] := by simpa using hts
    have hcolon : punct .colon rest = none :=
      punct_of_past (hrest.past (· = .colon) (by decide)) rfl
    exact ⟨⟨[], beginOf rest, by simp [condition?, Surface.condition, separator, hcolon], .nil⟩,
      hrest.mono (by decide)⟩
  | cons first more =>
    obtain ⟨ls, hcut, hreads⟩ := exists_condition hproper hprints other
    refine ⟨_, hcut, fun n ts rest hn hts hrest => ?_⟩
    obtain ⟨⟨found, stop⟩, hfound, hall⟩ := hreads n ts rest hn hts hrest
    obtain ⟨b, e, us, rfl, -⟩ := exists_token hts
    exact ⟨⟨found, stop, by simp only [condition?, hfound], hall⟩, .head List.mem_cons_self⟩

end Conditions

section Elements

structure Conditional.Prints (file : Path) (c : Conditional) : Prop where
  literal : c.literal.Prints file
  condition : PrintsCondition file c.condition

/-- Two literals with conditions mention the same. -/
structure Conditional.Matches (file other : Path) (c c' : Conditional) : Prop where
  literal : (c'.literal.lower other).mentions = (c.literal.lower file).mentions
  condition : LiteralsMatch file other c.condition c'.condition

theorem Conditional.Matches.lower {c c' : Conditional} (h : c.Matches file other c') :
    (c'.lower other).mentions = (c.lower file).mentions := by
  refine mentions_congr rfl (by simp [Conditional.lower]) fun f hf => ?_
  have hf : f = .literal ∨
      f = .condition := by simpa [Conditional.lower, NodeKind.childFields] using hf
  rcases hf with rfl | rfl
  · simp [Conditional.lower, h.literal]
  · simp [Conditional.lower, h.condition.lowerCondition]

theorem Conditional.Matches.lowerPlain {c c' : Conditional} (h : c.Matches file other c') :
    (c'.lowerPlain other).mentions = (c.lowerPlain file).mentions := by
  have hempty : c'.condition.isEmpty = c.condition.isEmpty :=
    (isEmpty_eq_of_forall₂ h.condition).symm
  rw [Conditional.lowerPlain, Conditional.lowerPlain, hempty]
  split
  · exact h.literal
  · exact h.lower

theorem Conditional.render_lower (c : Conditional) :
    (c.lower file).render = (c.literal.lower file).render ++ conditionTextOf file c.condition := by
  rw [Conditional.lower, render_conditionalLiteral rfl, conditionText, conditionTextOf]
  simp [textOf, textsOf, lowerCondition]
  rfl

theorem Conditional.render_lowerPlain (c : Conditional) :
    (c.lowerPlain file).render = (c.lower file).render := by
  rw [c.render_lower, Conditional.lowerPlain]
  split
  · rw [conditionTextOf, if_pos ‹_›, String.append_empty]
  · exact c.render_lower

/-- The reading of the text of a literal with its condition. -/
structure Conditional.Reread (c : Conditional) (file other : Path) (ls : List Lexeme) : Prop where
  cut : CutInto (c.lower file).render.toList ls
  starts : ∃ x more, ls = x :: more ∧ x.startsLiteral = true
  reads : Rereads conditional elementEnds (c.Matches file other) ls
  plain : ∀ n ts rest, 2 * ls.length + 3 ≤ n → ts.map Token.lexeme = ls →
    OpensWith elementEnds rest → choice n (ts ++ rest) = none ∧ aggregate n (ts ++ rest) = none

theorem Conditional.exists_reread {c : Conditional} (h : c.Proper) (hprints : c.Prints file)
    (other : Path) : ∃ ls, c.Reread file other ls := by
  obtain ⟨a, ha⟩ := Literal.exists_reread h.literal hprints.literal other
  obtain ⟨ls, hcut, hcondition⟩ := exists_condition? h.condition hprints.condition other
  obtain ⟨x, more, hx, hstarts, -⟩ := ha.starts
  refine ⟨a ++ ls, ?_, ⟨x, more ++ ls, by rw [hx]; rfl, hstarts⟩, ?_, ?_⟩
  · rw [c.render_lower, String.toList_append]
    exact ha.cut.append hcut (stopsWords_conditionTextOf c.condition)
  · intro n ts rest hn hts hrest
    obtain ⟨us, vs, rfl, hus, hvs⟩ := exists_tokens hts
    rw [List.length_append] at hn
    obtain ⟨⟨found, stop, hfound, hall⟩, hopens⟩ := hcondition n vs rest (by omega) hvs hrest
    obtain ⟨l', hl', hsame⟩ := ha.reads n us (vs ++ rest) (by omega) hus (hopens.mono (by decide))
    exact ⟨⟨⟨beginOf (us ++ (vs ++ rest)), stop⟩, l', found⟩, by simp [conditional, hl', hfound],
      hsame, hall⟩
  · intro n ts rest hn hts hrest
    obtain ⟨us, vs, rfl, hus, hvs⟩ := exists_tokens hts
    rw [List.length_append] at hn
    obtain ⟨-, hopens⟩ := hcondition n vs rest (by omega) hvs hrest
    rw [List.append_assoc]
    exact ha.plain n us (vs ++ rest) (by omega) hus (hopens.mono (by decide))

/-- Two elements of aggregates mention the same. -/
def AggregateElement.Matches (file other : Path) (e e' : AggregateElement) : Prop :=
  LiteralsMatch file other e.condition e'.condition

theorem AggregateElement.Matches.lower {e e' : AggregateElement} (h : e.Matches file other e') :
    (e'.lower other).mentions = (e.lower file).mentions := by
  have hterms (path : Path) (e : AggregateElement) :
      mentionsOf ((e.terms.map (Terms.lower path)).getD []) = fun _ => [] := by
    funext t
    rw [mentionsOf, List.flatMap_eq_nil_iff]
    intro m hm
    refine mentions_of_topAtoms ?_
    cases hterms : e.terms with
    | none => simp [hterms] at hm
    | some terms =>
      have hnone := terms.topAtoms_lower path
      rw [List.flatMap_eq_nil_iff] at hnone
      exact hnone m (by simpa [hterms] using hm)
  refine mentions_congr rfl (by simp [AggregateElement.lower]) fun f hf => ?_
  have hf : f = .terms ∨
      f = .condition := by simpa [AggregateElement.lower, NodeKind.childFields] using hf
  rcases hf with rfl | rfl
  · simp [AggregateElement.lower, hterms]
  · simp [AggregateElement.lower, LiteralsMatch.lowerCondition h]

theorem AggregateElement.render_lower (e : AggregateElement) : (e.lower file).render =
    argumentsText ((e.terms.map (Terms.lower file)).getD []) ++
      conditionTextOf file e.condition := by
  rw [AggregateElement.lower, render_bodyAggregateElement rfl, conditionText, conditionTextOf]
  simp [textsOf, lowerCondition]
  rfl

theorem AggregateElement.exists_reread {e : AggregateElement} (h : e.Proper)
    (hprints : PrintsCondition file e.condition) (other : Path) :
    ∃ ls, CutInto (e.lower file).render.toList ls ∧
      Rereads aggregateElement elementEnds (e.Matches file other) ls := by
  cases hterms : e.terms with
  | none =>
    obtain ⟨first, more, hcondition⟩ := List.exists_cons_of_ne_nil (h.nonempty hterms)
    have hproper := h.condition
    rw [hcondition] at hproper hprints
    obtain ⟨ls, hcut, hreads⟩ := exists_condition hproper hprints other
    refine ⟨.punct .colon :: ls, ?_, fun n ts rest hn hts hrest => ?_⟩
    · rw [e.render_lower, hterms, hcondition]
      exact hcut
    · obtain ⟨⟨found, stop⟩, hfound, hall⟩ := hreads n ts rest hn hts hrest
      obtain ⟨b, e', us, rfl, -⟩ := exists_token hts
      rw [List.cons_append] at hfound ⊢
      have hnone : term n (⟨.punct .colon, b, e'⟩ :: (us ++ rest)) = none := term_eq_none rfl
      refine ⟨⟨⟨b, stop⟩, none, found⟩, ?_, ?_⟩
      · simp [aggregateElement, termsOf, hnone, hfound, beginOf]
      · rw [AggregateElement.Matches, hcondition]
        exact hall
  | some terms =>
    have hlegible : LegibleArguments (terms.lower file) := Terms.legible (h.terms terms hterms)
    obtain ⟨a, ms, k, ha, hms, -, htext⟩ := hlegible.exists_written
    obtain ⟨ls, hcut, hcondition⟩ := exists_condition? h.condition hprints other
    refine ⟨a ++ ms ++ ls, ?_, fun n ts rest hn hts hrest => ?_⟩
    · rw [e.render_lower, hterms, Option.map_some, Option.getD_some, String.toList_append, htext]
      exact (Leads.append ha.stands hms.stands).cut.append hcut
        (stopsWords_conditionTextOf e.condition)
    · obtain ⟨us₁, ws, rfl, hus₁, hws⟩ := exists_tokens hts
      obtain ⟨us, vs, rfl, hus, hvs⟩ := exists_tokens hus₁
      simp only [List.length_append] at hn
      obtain ⟨⟨found, stop, hfound, hall⟩, hopens⟩ := hcondition n ws rest (by omega) hws hrest
      have hpast : Past (Part.members k).goesOn (ws ++ rest) :=
        hopens.past (Part.members 0).goesOn (by decide)
      obtain ⟨more, hmore, hk, hmembers⟩ :=
        hms.reads file n vs (ws ++ rest) (by simp only [Part.bound]; omega) hvs hpast n (by omega)
      obtain ⟨first, hfirst, hfirsttext⟩ := ha.reads file n us (vs ++ (ws ++ rest))
        (by simp only [Part.bound]; omega) hus (hms.past hvs hpast)
      obtain ⟨list, hlist, -⟩ := exists_list hfirst hfirsttext hmore hk hmembers
      exact ⟨⟨⟨beginOf (us ++ (vs ++ (ws ++ rest))), stop⟩, some list, found⟩, by
        simp [aggregateElement, hlist, hfound], hall⟩

end Elements

end AspAtlas.Surface
