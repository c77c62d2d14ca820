import AspAtlas.Proofs.Grammar.Terms
/-!
Literals and conditions: what the readers find is what the grammar matches, and the pairs of the
matches lower to the same tree.
-/
namespace AspAtlas.Surface

open Grammar

variable {file : Path} {m n k : Nat} {p q : Place} {ps : List Pair}

section Views

variable (file)

/-- The view of a predicate. -/
def AtomView : View Atom := fun a q ps =>
  a.span.stop = q.position ∧
    ∃ pair : Pair, ps = [pair] ∧ pair.rule = .symbolicAtom ∧
      pair.symbolicAtom file = .ok (a.lower file)

/-- The view of what a literal asserts. -/
def AssertionView : View Assertion := fun a q ps =>
  a.span.stop = q.position ∧ ∃ pair : Pair, ps = [pair] ∧
    ∀ seen, Pair.literalPart file seen pair = .ok (seen.1, some (a.lower file))

/-- The view of a literal. -/
def LiteralView : View Literal := fun l q ps =>
  l.span.stop = q.position ∧ ∃ pair : Pair, ps = [pair] ∧ pair.literal file = .ok (l.lower file)

/-- The pair of some negations, if there are any. -/
inductive NegationsPairs : Negations → List Pair → Prop
  | none : NegationsPairs .none []
  | some {sign : Negations} {pair : Pair} (hrule : pair.rule = .naf)
      (h : pair.negations = sign.sign) : NegationsPairs sign [pair]

/-- The pair of a condition, if there is one. -/
inductive ConditionPairs : List Literal → List Pair → Prop
  | none : ConditionPairs [] []
  | some {first : Literal} {more : List Literal} {pair : Pair} (hrule : pair.rule = .condition)
      (h : pair.condition file = .ok (lowerCondition file (first :: more))) :
      ConditionPairs (first :: more) [pair]

end Views

theorem term_agrees (file : Path) (hn : 2 * m ≤ n) :
    Agrees m (.rule .term) (TermView file) (term n) :=
  (term_factor_agree file n).1 m hn

theorem minus_tracks (p : Place) : Tracks p.tokens.length (.rule .classicalNegation) p
    (fun _ _ ps => ∃ pair : Pair, ps = [pair] ∧ pair.rule = .classicalNegation)
    (punct .minus p.tokens) :=
  .rule rfl (symbol_tracks .minus rfl p) fun _ _ _ _ => ⟨_, rfl, rfl⟩

theorem atom_agrees (file : Path) (hn : 2 * m ≤ n) : Agrees m (.rule .symbolicAtom) (AtomView file)
    (atom n) := by
  intro p hp
  refine Mirrors.rule (R := fun a q ps => ∃ negated name pool pair signs args,
    a = Atom.mk ⟨beginOf p.tokens, q.position⟩ negated name pool ∧ ps = signs ++ pair :: args ∧
      pair.rule = .identifier ∧ pair.text = name ∧ PoolPairs file pool args ∧
      (negated = true ∧ (∃ sign : Pair, signs = [sign] ∧ sign.rule = .classicalNegation) ∨
        negated = false ∧ signs = [])) rfl ?_ ?_
  · obtain ⟨sign, q, signs, hsign, hder, hview, hlt⟩ :=
      ((minus_tracks p).mono (Nat.le_succ _)).optional (Nat.lt_succ_self _)
    simp only [atom, hsign]
    refine .seq hder
      (((identifier_tracks q).mono (show q.tokens.length ≤ p.tokens.length by omega)).bind ?_)
    rintro name r _ rfl hlt'
    have hnegated : sign.isSome = true ∧
        (∃ pair : Pair, signs = [pair] ∧ pair.rule = .classicalNegation) ∨
        sign.isSome = false ∧ signs = [] := by
      cases hview with
      | missing => exact .inr ⟨rfl, rfl⟩
      | there h => exact .inl ⟨rfl, h⟩
    have hterm := term_agrees file hn
    have hargs := arguments_agree (n := n) hterm (by omega) r (by omega)
    generalize argumentsOf n (term n) r.tokens = x at hargs ⊢
    cases hargs with
    | refused hnone =>
      refine .missing hnone ⟨_, name, none, _, signs, [], ?_, rfl, rfl, rfl, .none, hnegated⟩ hlt'
      rw [r.beginOf_tokens]
    | @taken x s qs _ hder' hview' hbehind'' =>
      obtain ⟨hlt''⟩ := hbehind''
      obtain ⟨pool, stop⟩ := x
      obtain ⟨rfl, hpool⟩ := hview'
      exact .there hder' ⟨_, name, pool, _, signs, qs, rfl, rfl, rfl, rfl, hpool,
        hnegated⟩ (by omega)
  · rintro a q ps ⟨negated, name, pool, pair, signs, args, rfl, rfl, hrule, rfl, hpool, hnegated⟩
    refine ⟨rfl, _, rfl, rfl, ?_⟩
    have hargs : args.foldlM (Pair.atomPart file) ⟨negated, pair.text, ([], [])⟩ =
        .ok ⟨negated, pair.text, (pool.map (Pool.lower file)).getD ([], [])⟩ := by
      cases hpool with
      | none => rfl
      | some hargs h =>
        simp only [List.foldlM_cons, Pair.atomPart, hargs, h]
        rfl
    have hparts : (signs ++ pair :: args).foldlM (Pair.atomPart file) {} =
        .ok ⟨negated, pair.text, (pool.map (Pool.lower file)).getD ([], [])⟩ := by
      rcases hnegated with ⟨rfl, sign, rfl, hsign⟩ | ⟨rfl, rfl⟩
      · simp only [List.singleton_append, List.foldlM_cons, Pair.atomPart, hsign, hrule, ← hargs]
        rfl
      · simp only [List.nil_append, List.foldlM_cons, Pair.atomPart, hrule, ← hargs]
        rfl
    simp only [Pair.symbolicAtom, hparts]
    rfl

/-- The comparison symbols, as the grammar lists them. -/
def comparisons : List Punct :=
  [.notEqual, .lessEqual, .greaterEqual, .sameAs, .equal, .less, .greater]

theorem comparisons_closed : UpwardClosed Punct.text Punct.all comparisons :=
  closed_symbols (by decide) (by decide) (by decide)

theorem isComparison_iff (s : Punct) : s.isComparison = true ↔ s ∈ comparisons := by
  cases s <;> decide

theorem comparison_op_tracks (p : Place) : Tracks p.tokens.length (.rule .comparisonOp) p
    (fun s q ps => ps = [⟨.comparisonOp, ⟨beginOf p.tokens, q.position⟩, s.text, []⟩])
    (punctWith Punct.isComparison p.tokens) := by
  refine ((punctWith_picks comparisons_closed isComparison_iff).rule_tracks rfl p).imp ?_
  rintro s q ps ⟨a, -, rfl, rfl⟩
  rfl

theorem boolean_picks :
    keywords.Picks [.truth, .falsity] (fun k b e => Assertion.boolean ⟨b, e⟩ k) boolean where
  closed := ⟨by decide, by unfold LongestFirst; decide, by decide⟩
  own a ha b e ts := by
    have hword : a = .truth ∨ a = .falsity := by simpa using ha
    simp [keywords, boolean, hword]
  other := by
    rintro ⟨lexeme, b, e⟩ ts h
    cases lexeme with
    | keyword k =>
      have hk : ¬ (k = .truth ∨ k = .falsity) := fun he => h k (by simpa using he) rfl
      simp [boolean, hk]
    | _ => rfl

theorem word_eq (k : Keyword) (r : Rule) (span : Span) :
    Pair.word ⟨r, span, k.text, []⟩ = k.name := by
  have hhash : k.text.toList.dropWhile (· == '#') = k.text.toList.drop 1 := by cases k <;> decide
  simp only [Pair.word, Keyword.name, hhash]

theorem boolean_tracks (p : Place) : Tracks p.tokens.length (.rule .boolean) p (AssertionView file)
    (boolean p.tokens) := by
  refine (boolean_picks.rule_tracks rfl p).imp ?_
  rintro _ q ps ⟨k, -, rfl, rfl⟩
  refine ⟨rfl, _, rfl, fun seen => ?_⟩
  change Except.ok (seen.1, some (named file _ .booleanConstant (Pair.word ⟨_, _, k.text, _⟩))) = _
  rw [word_eq]
  rfl

theorem comparison_agrees (file : Path) (hn : 2 * m ≤ n) :
    Agrees m (.rule .comparison) (AssertionView file) (comparison n) := by
  intro p hp
  have hterm := term_agrees file hn
  refine Mirrors.rule (R := fun a q ps => ∃ left s qs operator r right t us,
    a = Assertion.comparison ⟨beginOf p.tokens, q.position⟩ left operator right ∧
      ps = qs ++ (r :: us) ∧
      TermView file left s qs ∧ Pair.text r = operator.text ∧ TermView file right t us) rfl ?_ ?_
  · refine (hterm p hp).bind ?_
    rintro left q ps hleft hlt
    refine ((comparison_op_tracks q).mono (Nat.le_of_lt hlt)).bind ?_
    rintro operator r _ rfl hlt'
    refine ((hterm r (by omega)).mono (by omega)).last ?_
    rintro right s qs ts hright
    refine ⟨_, rfl, left, q, ps, operator, _, right, s, qs, ?_, rfl, hleft, rfl, hright⟩
    rw [hright.1]
  · rintro a q ps ⟨left, s, qs, operator, r, right, t, us, rfl, rfl, hleft, htext, hright⟩
    obtain ⟨-, pair, rfl, -, -, hleft⟩ := hleft
    obtain ⟨-, pair', rfl, -, hspan, hright⟩ := hright
    refine ⟨rfl, _, rfl, fun seen => ?_⟩
    simp only [Pair.literalPart, Pair.comparison, List.singleton_append, next, ok_bind, hleft,
      hright, htext, Pair.node, hspan]
    rfl

theorem assertion_agrees (file : Path) (hn : 2 * m ≤ n) :
    Agrees m Grammar.atom (AssertionView file) (assertion n) := by
  intro p hp
  refine (boolean_tracks p).or ((comparison_agrees file hn p hp).or ?_)
  refine (atom_agrees file hn p hp).map ?_
  rintro a q ps ⟨hstop, pair, rfl, hrule, hpair⟩
  refine ⟨hstop, _, rfl, fun seen => ?_⟩
  simp only [Pair.literalPart, hrule, hpair]
  rfl

theorem negations_exists (p : Place) : ∃ sign q ps, negations p.tokens = (sign, q.tokens) ∧
    Derives false (.opt (.rule .naf)) p.skip (some (q, ps)) ∧ NegationsPairs sign ps ∧
      q.tokens.length ≤ p.tokens.length := by
  have hfirst := negator_tracks p
  unfold negations
  generalize negator p.tokens = x at hfirst ⊢
  cases hfirst with
  | refused hnone =>
    exact ⟨_, p.skip, [], by simp, .missing (.noRule (.noFirst hnone)), .none, by simp⟩
  | @taken _ q ps _ hder hview hbehind =>
    obtain ⟨hlt⟩ := hbehind
    have hsecond := negator_tracks q
    dsimp only
    generalize negator q.tokens = y at hsecond ⊢
    cases hsecond with
    | refused hnone =>
      refine ⟨_, q.skip, _, by simp; rfl, .there (.rule (.seq hder (.missing hnone))), ?_,
        by simp; omega⟩
      refine .some rfl ?_
      obtain ⟨pair, rfl⟩ := List.length_eq_one_iff.mp hview
      rfl
    | @taken _ r qs _ hder' hview' hbehind' =>
      obtain ⟨hlt'⟩ := hbehind'
      refine ⟨_, r, _, rfl, .there (.rule (.seq hder (.there hder'))), .some rfl ?_, by omega⟩
      obtain ⟨pair, rfl⟩ := List.length_eq_one_iff.mp hview
      obtain ⟨pair', rfl⟩ := List.length_eq_one_iff.mp hview'
      rfl

theorem literal_agrees (file : Path) (hn : 2 * m ≤ n) :
    Agrees m (.rule .literal) (LiteralView file) (literal n) := by
  intro p hp
  refine Mirrors.rule (R := fun l q ps => ∃ sign signs assertion us,
    l = Literal.mk ⟨beginOf p.tokens, q.position⟩ sign assertion ∧ ps = signs ++ us ∧
      NegationsPairs sign signs ∧ AssertionView file assertion q us) rfl ?_ ?_
  · obtain ⟨sign, q, signs, hsign, hder, hsigns, hle⟩ := negations_exists p
    simp only [literal, hsign]
    refine .seq hder (((assertion_agrees file hn q (by omega)).mono hle).last ?_)
    intro assertion r us ts hview
    refine ⟨_, rfl, sign, signs, assertion, us, ?_, rfl, hsigns, hview⟩
    rw [hview.1]
  · rintro l q ps ⟨sign, signs, assertion, us, rfl, rfl, hsigns, -, pair, rfl, hpair⟩
    refine ⟨rfl, _, rfl, ?_⟩
    have hparts : (signs ++ [pair]).foldlM (Pair.literalPart file) (.none, none) =
        .ok (sign.sign, some (assertion.lower file)) := by
      cases hsigns with
      | none => simp only [List.nil_append, List.foldlM_cons, hpair, ok_bind]; rfl
      | @some _ naf hrule h =>
        have hnaf : Pair.literalPart file (.none, none) naf = .ok (sign.sign, none) := by
          simp only [Pair.literalPart, hrule, h]
        simp only [List.singleton_append, List.foldlM_cons, hnaf, hpair, ok_bind]
        rfl
    simp only [Pair.literal, hparts]
    rfl

theorem scan_tilde (cs : List Char) : scan '~' cs = (.stray '~', ['~'], cs) := by
  have hkeyword : longest? Keyword.text Keyword.all ('~' :: cs) = none := rfl
  have hpunct : longest? Punct.text Punct.all ('~' :: cs) = none := rfl
  simp [scan, word?_eq_none (c := '~') (by decide), number?_eq_none (c := '~') (by decide),
    quoted?_eq_none (c := '~') (by decide), keyword?, hkeyword, punct?, hpunct]

/-- A tilde matches where a stray one stands. -/
theorem tilde_cases (p : Place) :
    (Derives false (.text "~") p.skip none ∧ ∀ b e ts, p.tokens ≠ ⟨.stray '~', b, e⟩ :: ts) ∨
      ∃ found b e ts, Derives false (.text "~") p.skip (some found) ∧
        p.tokens = ⟨.stray '~', b, e⟩ :: ts := by
  have hlead : "~".toList = ['~'] := rfl
  cases p.front with
  | finish hrest h =>
    refine .inl ⟨.noText (by simp [hlead, hrest, Text.afterLead?]), ?_⟩
    rw [h]
    simp
  | @unit c cs used rest lexeme hrest hscan h =>
    by_cases hc : c = '~'
    · subst hc
      rw [scan_tilde, Prod.mk.injEq] at hscan
      obtain ⟨rfl, -⟩ := hscan
      exact .inr ⟨_, _, _, _, derives_text cs (by simp [hlead, hrest, Text.afterLead?]), h⟩
    · refine .inl ⟨.noText (by simp [hlead, hrest, Text.afterLead?, Ne.symm hc]), ?_⟩
      intro b e ts he
      rw [h, List.cons.injEq, Token.mk.injEq] at he
      obtain ⟨⟨rfl, -⟩, -⟩ := he
      exact hc (stray_of_scan hscan).symm

/-- A minus sign matches where one stands. -/
theorem minus_cases (p : Place) :
    (Derives false (.text "-") p.skip none ∧ ∀ b e ts, p.tokens ≠ ⟨.punct .minus, b, e⟩ :: ts) ∨
      ∃ found b e ts, Derives false (.text "-") p.skip (some found) ∧
        p.tokens = ⟨.punct .minus, b, e⟩ :: ts := by
  have hder := derives_spellings Punct.text false [.minus] p.skip
  rcases Vocabulary.longest?_cases (v := symbols) (closed_symbol .minus rfl) p with
    ⟨hnone, t, ts, htokens, hother⟩ | ⟨a, ha, q, hsome, hat⟩
  · change longest? Punct.text [.minus] p.skip.rest = none at hnone
    rw [hnone] at hder
    refine .inl ⟨hder, fun b e us he => ?_⟩
    rw [htokens, List.cons.injEq] at he
    exact hother .minus (by simp) (by rw [he.1]; rfl)
  · change longest? Punct.text [.minus] p.skip.rest = _ at hsome
    rw [hsome] at hder
    obtain rfl := List.mem_singleton.mp ha
    exact .inr ⟨_, _, _, _, hder, hat.tokens⟩

/-- The signs that may not follow a colon are kept out by its reader, too. -/
theorem signs_tracks (p : Place) (begin stop : Position) :
    Tracks (p.tokens.length + 1) (.seq (.absent (.text "-")) (.absent (.text "~"))) p
      (fun _ _ ps => ps = []) (separator (⟨.punct .colon, begin, stop⟩ :: p.tokens)) := by
  rcases minus_cases p with ⟨hminus, hother⟩ | ⟨found, b, e, ts, hminus, htokens⟩
  · rcases tilde_cases p with ⟨htilde, hother'⟩ | ⟨found, b, e, ts, htilde, htokens⟩
    · have hread : separator (⟨.punct .colon, begin, stop⟩ :: p.tokens) =
          some ((), p.skip.tokens) := by
        rw [Place.tokens_skip]
        simp only [separator, punct, if_true, Option.bind_eq_bind, Option.bind_some]
      have hskip : Derives false (.absent (.text "~")) (p.skip.pause false)
          (some (p.skip, [])) := by
        rw [p.pause_skip]
        exact .absent htilde
      rw [hread]
      exact .taken (.seq (.absent hminus) hskip) rfl (.tokens (by simp))
    · have hread : separator (⟨.punct .colon, begin, stop⟩ :: p.tokens) = none := by
        simp [separator, punct, htokens]
      have hskip : Derives false (.absent (.text "~")) (p.skip.pause false) none := by
        rw [p.pause_skip]
        exact .present htilde
      rw [hread]
      exact .refused (.noSecond (.absent hminus) hskip)
  · have hread : separator (⟨.punct .colon, begin, stop⟩ :: p.tokens) = none := by
      simp [separator, punct, htokens]
    rw [hread]
    exact .refused (.noFirst (.present hminus))

/-- An arrow starts with a colon too, but goes on with a sign that may not follow one. -/
theorem no_condSep_at_arrow {c : Char} {cs : List Char} (hc : c = '-' ∨ c = '~')
    (hsplit : p.skip.rest = ':' :: c :: cs) : Derives false condSep p.skip none := by
  have hcolon : Derives false (.text ":") p.skip (some (p.skip.move [':'] (c :: cs), [])) :=
    .text (by rw [hsplit]; rfl)
  have hready : (p.skip.move [':'] (c :: cs)).pause false = p.skip.move [':'] (c :: cs) := by
    refine Place.pause_of_no_gap ?_
    rcases hc with rfl | rfl <;> rfl
  refine .noSecond hcolon ?_
  rw [hready]
  rcases hc with rfl | rfl
  · exact .noFirst (.present (derives_text cs rfl))
  · refine .noSecond (.absent (.noText rfl)) ?_
    rw [hready]
    exact .present (derives_text cs rfl)

/-- The colon in front of a condition matches where its reader takes it. -/
theorem separator_tracks (p : Place) :
    Tracks p.tokens.length condSep p (fun _ _ ps => ps = []) (separator p.tokens) := by
  have hpart : UpwardClosed Punct.text Punct.all [.ifThen, .weakIf, .colon] :=
    closed_symbols (by decide) (by decide) (by decide)
  rcases Vocabulary.longest?_cases (v := symbols) hpart p with
    ⟨hnone, t, ts, htokens, hother⟩ | ⟨a, ha, q, hsome, hat⟩
  · have hcolon : punct .colon (t :: ts) = none := punct_eq_none (hother .colon (by simp))
    have htext : Derives false (.text ":") p.skip none :=
      .noText (Vocabulary.afterLead?_eq_none (v := symbols) (a := .colon) hnone (by simp))
    rw [htokens]
    simp only [separator, hcolon]
    exact .refused (.noFirst htext)
  · obtain rfl | rfl | rfl : a = .ifThen ∨ a = .weakIf ∨ a = .colon := by simpa using ha
    · rw [hat.tokens]
      exact .refused (no_condSep_at_arrow (.inl rfl) hat.split)
    · rw [hat.tokens]
      exact .refused (no_condSep_at_arrow (.inr rfl) hat.split)
    · have htext : Derives false (.text ":") p.skip (some (q, [])) := by
        rw [hat.move]
        exact .text (by rw [hat.split]; rfl)
      have hsigns := (signs_tracks q p.skip.position q.position).mono hat.length_lt
      rw [show p.tokens = ⟨.punct .colon, p.skip.position, q.position⟩ ::
        q.tokens from hat.tokens] at hsigns ⊢
      exact .seq htext hsigns

theorem mapM_literal {ls : List Literal} {ps : List Pair} (h : ManyView (LiteralView file) ls ps) :
    ps.mapM (Pair.literal file) = .ok (lowerCondition file ls) := by
  induction h with
  | nil => rfl
  | cons h hmore ih =>
    obtain ⟨-, pair, rfl, hpair⟩ := h
    rw [List.singleton_append, List.mapM_cons, hpair, ih]
    rfl

/-- The view of a condition behind its colon. -/
def ConditionView (file : Path) : View (List Literal × Position) := fun x q ps =>
  x.2 = q.position ∧ x.1 ≠ [] ∧ ConditionPairs file x.1 ps

theorem condition_agrees (file : Path) (hn : 2 * m ≤ n) :
    Agrees m (.seq condSep (.rule .condition)) (ConditionView file) (condition n) := by
  intro p hp
  refine (separator_tracks p).bind ?_
  rintro _ q _ rfl hlt
  refine Mirrors.rule (R := fun x s ps => ∃ first more, x = (first :: more, s.position) ∧
    ManyView (LiteralView file) (first :: more) ps) rfl ?_ ?_
  · refine Mirrors.mono ?_ (Nat.le_of_lt hlt)
    exact separated_tracks (fun l : Literal => l.span.stop)
      (fun first more stop => (first :: more, stop)) (separates_symbol .comma rfl)
      (literal_agrees file hn)
      (fun _ _ _ h => h.1) (fun _ _ => rfl) (by omega) (by omega) (fun _ _ _ _ h => ⟨_, _, rfl, h⟩)
  · rintro x s ps ⟨first, more, rfl, hall⟩
    exact ⟨rfl, List.cons_ne_nil _ _, .some rfl (mapM_literal hall)⟩

theorem condition?_exists (file : Path) (hn : 2 * m ≤ n) (p : Place) (hp : p.tokens.length < m) :
    ∃ c q ps, condition? n p.tokens = ((c, q.position), q.tokens) ∧
      Derives false conditionPart p.skip (some (q, ps)) ∧ ConditionPairs file c ps ∧
        q.tokens.length ≤ p.tokens.length := by
  have hread := condition_agrees file hn p hp
  unfold condition?
  generalize condition n p.tokens = x at hread ⊢
  cases hread with
  | refused hnone =>
    exact ⟨[], p.skip, [], by simp [p.beginOf_tokens], .missing hnone, .none, by simp⟩
  | @taken x q ps _ hder hview hbehind =>
    obtain ⟨hlt⟩ := hbehind
    obtain ⟨c, stop⟩ := x
    obtain ⟨rfl, -, hpairs⟩ := hview
    exact ⟨c, q, ps, rfl, .there hder, hpairs, by omega⟩

theorem conditionOf_eq {c : List Literal} (h : ConditionPairs file c ps) :
    Pair.conditionOf file ps = .ok (lowerCondition file c) := by
  cases h with
  | none => rfl
  | some hrule h => exact h

/-- The parts of a literal and its condition. -/
def ConditionalParts (file : Path) (begin : Position) : View Conditional := fun c q ps =>
  c.span = ⟨begin, q.position⟩ ∧ ∃ (pair : Pair) (us : List Pair), ps = pair :: us ∧
    pair.literal file = .ok (c.literal.lower file) ∧ ConditionPairs file c.condition us

theorem conditional_agrees (file : Path) (hn : 2 * m ≤ n) (p : Place) (hp : p.tokens.length < m) :
    Tracks p.tokens.length (.seq (.rule .literal) conditionPart) p
      (ConditionalParts file (beginOf p.tokens)) (conditional n p.tokens) := by
  refine (literal_agrees file hn p hp).bind ?_
  rintro l q ps ⟨-, pair, rfl, hpair⟩ hlt
  obtain ⟨c, r, us, hfound, hder, hpairs, hle⟩ := condition?_exists file hn q (by omega)
  simp only [hfound]
  exact .taken hder ⟨rfl, pair, us, rfl, hpair, hpairs⟩ (.tokens (by omega))

/-- The view of an element of a head. -/
def HeadLiteralView (file : Path) : View Conditional := fun c q ps =>
  c.span.stop = q.position ∧ ∃ pair : Pair, ps = [pair] ∧ pair.rule = .headLiteral ∧
    pair.headLiteral file = .ok (c.lower file)

theorem headLiteral_agrees (file : Path) (hn : 2 * m ≤ n) :
    Agrees m (.rule .headLiteral) (HeadLiteralView file) (conditional n) := by
  intro p hp
  refine Mirrors.rule rfl (conditional_agrees file hn p hp) ?_
  rintro c q ps ⟨hspan, pair, us, rfl, hpair, hcondition⟩
  refine ⟨by rw [hspan], _, rfl, rfl, ?_⟩
  simp only [Pair.headLiteral, next, ok_bind, hpair, conditionOf_eq hcondition, Pair.node, ← hspan]
  rfl

/-- The view of an element of a body. -/
def BodyLiteralView (file : Path) : View Conditional := fun c q ps =>
  c.span.stop = q.position ∧ ∃ pair : Pair, ps = [pair] ∧ pair.rule = .conditionalLiteral ∧
    pair.conditionalLiteral file = .ok (c.lowerPlain file)

theorem bodyLiteral_agrees (file : Path) (hn : 2 * m ≤ n) :
    Agrees m (.rule .conditionalLiteral) (BodyLiteralView file) (conditional n) := by
  intro p hp
  refine Mirrors.rule rfl (conditional_agrees file hn p hp) ?_
  rintro ⟨span, literal, condition⟩ q ps ⟨hspan, pair, us, rfl, hpair, hcondition⟩
  simp only at hspan hpair hcondition
  subst hspan
  refine ⟨rfl, _, rfl, rfl, ?_⟩
  cases hcondition with
  | none => simp only [Pair.conditionalLiteral, next, ok_bind, hpair]; rfl
  | some hrule h => simp only [Pair.conditionalLiteral, next, ok_bind, hpair, h]; rfl

end AspAtlas.Surface
