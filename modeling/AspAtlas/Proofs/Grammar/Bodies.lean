import AspAtlas.Proofs.Grammar.Literals
/-!
Heads and bodies: what the readers find is what the grammar matches, and the pairs of the matches
lower to the same tree.
-/
namespace AspAtlas.Surface

open Grammar

variable {α β : Type} {file : Path} {m n k : Nat} {e : Expr Rule} {p q : Place} {ps : List Pair}
    {Q : View α}

/-- Takes a possibly empty list of constructs separated by a symbol. -/
def listed (s : Punct) (n : Nat) (item : Reader α) (ts : List Token) : List α × List Token :=
  match item ts with
  | some (first, rest) =>
    (first :: (further n (fun other => decide (other = s)) item rest).1,
      (further n (fun other => decide (other = s)) item rest).2)
  | none => ([], ts)

theorem semicolons_eq (f : Reader α) (ts : List Token) :
    semicolons n f ts = listed .semicolon n f ts := rfl

theorem listed_exists {f : Reader α} (s : Punct) (hs : s.hasLonger = false) (h : Agrees m e Q f)
    (hp : p.tokens.length < m) (hm : m ≤ n + 1) :
    ∃ xs q ps, listed s n f p.tokens = (xs, q.tokens) ∧
      Derives false (.opt (Expr.separated (.text s.text) e)) p.skip (some (q, ps)) ∧
        ManyView Q xs ps ∧ q.tokens.length ≤ p.tokens.length := by
  have hfirst := h p hp
  unfold listed
  generalize f p.tokens = x at hfirst ⊢
  cases hfirst with
  | refused hnone => exact ⟨[], p.skip, [], by simp, .missing (.noFirst hnone), .nil, by simp⟩
  | @taken first q ps _ hder hview hbehind =>
    obtain ⟨hlt⟩ := hbehind
    have hmany := Mirrors.many (after_agrees (separates_symbol s hs) h)
      (show q.tokens.length < m by omega) (show q.tokens.length ≤ n by omega)
    simp only [further]
    generalize many (after (fun other => decide (other = s)) f) n q.tokens = more at hmany ⊢
    cases hmany with
    | taken hrep hall hbehind' =>
      obtain ⟨hlt'⟩ := hbehind'
      exact ⟨_, _, _, rfl, .there (.seq hder hrep), .cons hview hall.1, by omega⟩

section Bounds

variable (file) in
/-- The view of a bound. -/
def BoundView (r : Rule) : View Bound := fun b q ps =>
  b.span.stop = q.position ∧
    ∃ pair : Pair, ps = [pair] ∧ pair.rule = r ∧ pair.guard file = .ok (b.lower file)

/-- The pair of an operator, if there is one. -/
inductive OperatorPairs : Option Punct → List Pair → Prop
  | none : OperatorPairs none []
  | some {s : Punct} {pair : Pair} (hrule : pair.rule = .comparisonOp) (h : pair.text = s.text) :
      OperatorPairs (some s) [pair]

theorem foldlM_operator {operator : Option Punct} (h : OperatorPairs operator ps)
    (term : Option Node) :
    ps.foldlM (Pair.guardPart file) (term, "<=") =
      .ok (term, (operator.map Punct.text).getD "<=") := by
  cases h with
  | none => rfl
  | some hrule h =>
    simp only [List.foldlM_cons, Pair.guardPart, hrule, h]
    rfl

theorem guardPart_term {t : Term} (h : TermView file t q ps) (seen : Option Node × String) :
    ps.foldlM (Pair.guardPart file) seen = .ok (some (t.lower file), seen.2) := by
  obtain ⟨-, pair, rfl, hrule, -, hpair⟩ := h
  simp only [List.foldlM_cons, Pair.guardPart, hrule, hpair]
  rfl

/-- A comparison symbol with its end. -/
def comparisonSymbol : Reader (Punct × Position) := fun ts =>
  (punctWith Punct.isComparison ts).map
    fun x => ((x.1, (ts.head?.map Token.stop).getD (beginOf ts)), x.2)

theorem comparisonSymbol_picks :
    symbols.Picks comparisons (fun s _ e => (s, e)) comparisonSymbol where
  closed := comparisons_closed
  own a ha b e ts := by simp [symbols, comparisonSymbol, punctWith, (isComparison_iff a).mpr ha]
  other t ts h := by
    rw [comparisonSymbol, (punctWith_picks comparisons_closed isComparison_iff).other t ts h]
    rfl

theorem leftBound_eq (ts : List Token) : leftBound n ts = (term n ts).bind fun x =>
    match comparisonSymbol x.2 with
    | some ((operator, stop), left) => some (⟨⟨beginOf ts, stop⟩, some operator, x.1⟩, left)
    | none => some (⟨⟨beginOf ts, beginOf x.2⟩, none, x.1⟩, x.2) := by
  unfold leftBound
  cases term n ts with
  | none => rfl
  | some x =>
    simp only [Option.bind_eq_bind, Option.bind_some, comparisonSymbol]
    cases punctWith Punct.isComparison x.2 <;> rfl

theorem leftBound_agrees (file : Path) (hn : 2 * m ≤ n) :
    Agrees m (.rule .leftGuard) (BoundView file .leftGuard) (leftBound n) := by
  intro p hp
  refine Mirrors.rule (R := fun b q ps => ∃ operator t s us ops,
    b = Bound.mk ⟨beginOf p.tokens, q.position⟩ operator t ∧ ps = us ++ ops ∧ TermView file t s us ∧
      OperatorPairs operator ops) rfl ?_ ?_
  · rw [leftBound_eq]
    refine (term_agrees file hn p hp).bind ?_
    intro t q us hview hlt
    have hop := comparisonSymbol_picks.rule_tracks (r := .comparisonOp) rfl q
    dsimp only
    generalize comparisonSymbol q.tokens = x at hop ⊢
    cases hop with
    | refused hnone =>
      refine .missing hnone ⟨none, t, q, us, [], ?_, rfl, hview, .none⟩ hlt
      rw [q.beginOf_tokens]
    | @taken x s qs _ hder hview' hbehind' =>
      obtain ⟨hlt'⟩ := hbehind'
      obtain ⟨a, -, rfl, rfl⟩ := hview'
      exact .there hder ⟨some a, t, q, us, _, rfl, rfl, hview, .some rfl rfl⟩ (by omega)
  · rintro b q ps ⟨operator, t, s, us, ops, rfl, rfl, hterm, hops⟩
    refine ⟨rfl, _, rfl, rfl, ?_⟩
    simp only [Pair.guard, List.foldlM_append, guardPart_term hterm, ok_bind, foldlM_operator hops]
    rfl

theorem rightBound_agrees (file : Path) (hn : 2 * m ≤ n) :
    Agrees m (.rule .rightGuard) (BoundView file .rightGuard) (rightBound n) := by
  intro p hp
  refine Mirrors.rule (R := fun b q ps => ∃ operator t s us ops,
    b = Bound.mk ⟨beginOf p.tokens, q.position⟩ operator t ∧ ps = ops ++ us ∧ TermView file t s us ∧
      OperatorPairs operator ops) rfl ?_ ?_
  · obtain ⟨operator, q, ops, hoperator, hder, hview, hlt⟩ :=
      ((comparison_op_tracks p).mono (Nat.le_succ _)).optional (Nat.lt_succ_self _)
    have hops : OperatorPairs operator ops := by
      cases hview with
      | missing => exact .none
      | there h =>
        subst h
        exact .some rfl rfl
    simp only [rightBound, hoperator]
    refine .seq hder (((term_agrees file hn q (by omega)).mono (by omega)).last ?_)
    intro t r us ts hview
    refine ⟨_, rfl, operator, t, r, us, ops, ?_, rfl, hview, hops⟩
    rw [hview.1]
  · rintro b q ps ⟨operator, t, s, us, ops, rfl, rfl, hterm, hops⟩
    refine ⟨rfl, _, rfl, rfl, ?_⟩
    simp only [Pair.guard, List.foldlM_append, foldlM_operator hops, ok_bind, guardPart_term hterm]
    rfl

end Bounds

section Aggregates

/-- The keywords of body aggregates, as the grammar lists them. -/
def aggregateFunctions : List Keyword := [.count, .sumPlus, .sum, .min, .max]

/-- These keywords and those that go on with one of them. -/
def aggregateLike : List Keyword := [.count, .sumPlus, .sum, .minimize, .maximize, .min, .max]

theorem aggregateLike_closed : UpwardClosed Keyword.text Keyword.all aggregateLike :=
  ⟨by decide, by unfold LongestFirst; decide, by decide⟩

theorem isAggregateFunction_iff (k : Keyword) :
    isAggregateFunction k = true ↔ k ∈ aggregateFunctions := by
  simp [isAggregateFunction, aggregateFunctions]

theorem aggregateLike_of_function {k : Keyword} (h : k ∈ aggregateFunctions) :
    k ∈ aggregateLike := by
  revert h
  cases k <;> decide

/-- A longer keyword starts with one of an aggregate, but then no brace comes next. -/
theorem no_aggregate_at_longer {b : Expr Rule} {short : Keyword} {c : Char} {cs : List Char}
    (hlongest : longest? Keyword.text aggregateFunctions p.skip.rest = some (short, c :: cs))
    (hgap : gap? (c :: cs) = none) (hc : c ≠ '\x7b') :
    Derives false (.seq (.rule .aggregateFunction) (.seq (.text "\x7b") b)) p.skip none := by
  have hder := derives_spellings Keyword.text true aggregateFunctions p.skip
  rw [hlongest] at hder
  refine .noSecond (.rule hder) ?_
  rw [Place.pause_of_no_gap hgap]
  have hlead : "\x7b".toList = ['\x7b'] := rfl
  exact .noFirst (.noText (by simp [hlead, Text.afterLead?, Ne.symm hc]))

/-- The keyword of an aggregate matches in front of a brace where it stands. -/
theorem aggregateFunction_tracks {b : Expr Rule} {R : View β}
    {f : Keyword × List Token → Option (β × List Token)}
    (p : Place) (hnext : ∀ word q, q.tokens.length < p.tokens.length →
      Tracks k (.seq (.text "\x7b") b) q
        (fun s z qs => R s z (⟨.aggregateFunction, ⟨beginOf p.tokens, q.position⟩,
          word.text, []⟩ :: qs))
        (f (word, q.tokens))) :
    Tracks k (.seq (.rule .aggregateFunction) (.seq (.text "\x7b") b)) p R
      ((keywordWith isAggregateFunction p.tokens).bind f) := by
  have hder := derives_spellings Keyword.text true aggregateFunctions p.skip
  rcases Vocabulary.longest?_cases (v := keywords) aggregateLike_closed p with
    ⟨hnone, t, ts, htokens, hother⟩ | ⟨word, hword, q, hsome, hat⟩
  · have hshort : longest? Keyword.text aggregateFunctions p.skip.rest = none :=
      List.findSome?_eq_none_iff.mpr fun a ha =>
        List.findSome?_eq_none_iff.mp hnone a (aggregateLike_of_function ha)
    have hread : keywordWith isAggregateFunction p.tokens = none := by
      rw [htokens]
      exact keywordWith_eq_none fun word hword => Bool.eq_false_iff.mpr fun he =>
        hother word (aggregateLike_of_function ((isAggregateFunction_iff word).mp he)) hword
    rw [hshort] at hder
    rw [hread]
    exact .refused (.noFirst (.noRule hder))
  · by_cases hfunction : word ∈ aggregateFunctions
    · have hshort : longest? Keyword.text aggregateFunctions p.skip.rest = some (word, q.rest) := by
        obtain ⟨-, hsplit, hmax⟩ := (longest?_eq_some_iff aggregateLike_closed.sorted).mp hsome
        exact (longest?_eq_some_iff (by unfold LongestFirst; decide)).mpr
          ⟨hfunction, hsplit, fun other hother => hmax other (aggregateLike_of_function hother)⟩
      have hread : keywordWith isAggregateFunction p.tokens = some (word, q.tokens) := by
        rw [hat.tokens]
        simp [keywords, keywordWith, (isAggregateFunction_iff word).mpr hfunction]
      rw [hshort] at hder
      rw [hread]
      exact .seq (hat.rule hder) (hnext word q hat.length_lt)
    · have hread : keywordWith isAggregateFunction p.tokens = none := by
        rw [hat.tokens]
        refine keywordWith_eq_none fun k hk => ?_
        rw [← Lexeme.keyword.inj hk]
        exact Bool.eq_false_iff.mpr fun he => hfunction ((isAggregateFunction_iff word).mp he)
      have htail := hat.split
      rw [hread]
      obtain rfl | rfl : word = .minimize ∨ word = .maximize := by
        revert hword hfunction
        cases word <;> decide
      · have hlongest : longest? Keyword.text aggregateFunctions p.skip.rest =
            some (.min, 'i' :: 'm' :: 'i' :: 'z' :: 'e' :: q.rest) := by
          rw [htail]
          rfl
        exact .refused (no_aggregate_at_longer hlongest rfl (by decide))
      · have hlongest : longest? Keyword.text aggregateFunctions p.skip.rest =
            some (.max, 'i' :: 'm' :: 'i' :: 'z' :: 'e' :: q.rest) := by
          rw [htail]
          rfl
        exact .refused (no_aggregate_at_longer hlongest rfl (by decide))

/-- The view of an element of an aggregate. -/
def AggregateElementView (file : Path) : View AggregateElement := fun e q ps =>
  e.span.stop = q.position ∧ ∃ pair : Pair, ps = [pair] ∧ pair.rule = .aggregateElement ∧
    pair.aggregateElement file = .ok (e.lower file)

theorem foldlM_condition {c : List Literal} (h : ConditionPairs file c ps) (terms : List Node) :
    ps.foldlM (Pair.elementPart file) (terms, []) = .ok (terms, lowerCondition file c) := by
  cases h with
  | none => rfl
  | some hrule h =>
    simp only [List.foldlM_cons, Pair.elementPart, hrule, h]
    rfl

theorem aggregateElement_agrees (file : Path) (hn : 2 * m ≤ n) :
    Agrees m (.rule .aggregateElement) (AggregateElementView file) (aggregateElement n) := by
  intro p hp
  refine Mirrors.rule (R := fun e q ps => ∃ terms c,
    e = AggregateElement.mk ⟨beginOf p.tokens, q.position⟩ terms c ∧
      ps.foldlM (Pair.elementPart file) ([], []) =
        .ok ((terms.map (Terms.lower file)).getD [], lowerCondition file c)) rfl ?_ ?_
  · have hterms := terms_agree (n := n) (term_agrees file hn) (by omega) p hp
    unfold aggregateElement
    generalize termsOf n (term n) p.tokens = x at hterms ⊢
    cases hterms with
    | refused hnone =>
      refine Mirrors.right (.noFirst hnone) ((condition_agrees file hn p hp).map
        (F := fun x => AggregateElement.mk ⟨beginOf p.tokens, x.2⟩ none x.1) ?_)
      rintro x q ps ⟨hstop, -, hpairs⟩
      exact ⟨none, x.1, by rw [← hstop], foldlM_condition hpairs []⟩
    | @taken terms q us _ hder hview hbehind =>
      obtain ⟨hlt⟩ := hbehind
      obtain ⟨-, pair, rfl, hrule, -, hpair⟩ := hview
      obtain ⟨c, r, ws, hfound, hder', hpairs, hle⟩ := condition?_exists file hn q (by omega)
      simp only [hfound]
      refine .taken (.left (.seq hder hder')) ⟨some terms, c, rfl, ?_⟩ (.tokens (by omega))
      have hfirst : Pair.elementPart file ([], []) pair = .ok (terms.lower file, []) := by
        simp only [Pair.elementPart, hrule, hpair]
        rfl
      rw [List.singleton_append, List.foldlM_cons, hfirst]
      exact foldlM_condition hpairs _
  · rintro e q ps ⟨terms, c, rfl, hfold⟩
    refine ⟨rfl, _, rfl, rfl, ?_⟩
    simp only [Pair.aggregateElement, hfold]
    rfl

/-- What of an aggregate is known when its parts have been looked through up to some point. -/
theorem foldlM_sign {sign : Negations} (h : NegationsPairs sign ps) :
    ps.foldlM (Pair.aggregatePart file) {} = .ok { sign := sign.sign } := by
  cases h with
  | none => rfl
  | some hrule h =>
    simp only [List.foldlM_cons, Pair.aggregatePart, hrule, h]
    rfl

theorem foldlM_leftGuard {left : Option Bound} {seen : Pair.AggregateParts}
    (h : OptionView (BoundView file .leftGuard) p left q ps) (hseen : seen.left = none) :
    ps.foldlM (Pair.aggregatePart file) seen =
      .ok { seen with left := left.map (Bound.lower file) } := by
  obtain ⟨sign, function, left', elements, right⟩ := seen
  obtain rfl := hseen
  cases h with
  | missing => rfl
  | there h =>
    obtain ⟨-, pair, rfl, hrule, hpair⟩ := h
    simp only [List.foldlM_cons, Pair.aggregatePart, hrule, hpair]
    rfl

theorem foldlM_rightGuard {right : Option Bound} {seen : Pair.AggregateParts}
    (h : OptionView (BoundView file .rightGuard) p right q ps) (hseen : seen.right = none) :
    ps.foldlM (Pair.aggregatePart file) seen =
      .ok { seen with right := right.map (Bound.lower file) } := by
  obtain ⟨sign, function, left, elements, right'⟩ := seen
  obtain rfl := hseen
  cases h with
  | missing => rfl
  | there h =>
    obtain ⟨-, pair, rfl, hrule, hpair⟩ := h
    simp only [List.foldlM_cons, Pair.aggregatePart, hrule, hpair]
    rfl

theorem foldlM_elements {es : List AggregateElement}
    (h : ManyView (AggregateElementView file) es ps)
    (seen : Pair.AggregateParts) : ps.foldlM (Pair.aggregatePart file) seen =
      .ok { seen with elements := seen.elements ++ es.map (AggregateElement.lower file) } := by
  induction h generalizing seen with
  | nil => simp; rfl
  | @cons element q _ more qs h hmore ih =>
    obtain ⟨-, pair, rfl, hrule, hpair⟩ := h
    have hfirst : Pair.aggregatePart file seen pair =
        .ok { seen with elements := seen.elements ++ [element.lower file] } := by
      simp only [Pair.aggregatePart, hrule, hpair]
      rfl
    rw [List.singleton_append, List.foldlM_cons, hfirst, ok_bind, ih]
    simp

/-- The view of an aggregate. -/
def AggregateView (file : Path) : View Aggregate := fun a q ps =>
  a.span.stop = q.position ∧ ∃ pair : Pair, ps = [pair] ∧ pair.rule = .aggregateLiteral ∧
    pair.aggregateLiteral file = .ok (a.lower file)

/-- A bound on the right that may be missing ends where its place does. -/
theorem boundEnd_eq {right : Option Bound}
    (h : OptionView (BoundView file .rightGuard) p right q ps) :
    boundEnd right q.tokens = q.position := by
  cases h with
  | missing => simp [boundEnd, p.beginOf_tokens]
  | there h => exact h.1

theorem aggregate_agrees (file : Path) (hn : 2 * m ≤ n) :
    Agrees m (.rule .aggregateLiteral) (AggregateView file) (aggregate n) := by
  intro p hp
  refine Mirrors.rule (R := fun a q ps => ∃ sign left function elements right,
    a = Aggregate.mk ⟨beginOf p.tokens, q.position⟩ sign left function elements right ∧
      ps.foldlM (Pair.aggregatePart file) {} =
        .ok ⟨sign.sign, function.name, left.map (Bound.lower file),
          elements.map (AggregateElement.lower file), right.map (Bound.lower file)⟩) rfl ?_ ?_
  · obtain ⟨sign, q, signs, hsign, hder₁, hsigns, hle₁⟩ := negations_exists p
    obtain ⟨left, r, lefts, hleft, hder₂, hlefts, hlt₂⟩ :=
      ((leftBound_agrees file hn q (by omega)).mono (Nat.le_succ _)).optional (Nat.lt_succ_self _)
    simp only [aggregate, hsign, hleft]
    refine .seq hder₁ (.seq hder₂ (aggregateFunction_tracks r ?_))
    intro word s hlt₃
    refine (symbol_tracks .openBrace rfl s).bind ?_
    rintro _ t _ ⟨-, rfl⟩ hlt₄
    obtain ⟨es, u, elements, hes, hder₅, hall, hle₅⟩ := listed_exists (n := n) .semicolon rfl
      (aggregateElement_agrees file hn) (show t.tokens.length < m by omega) (by omega)
    simp only [semicolons_eq, hes]
    refine .seq hder₅ ((symbol_tracks .closeBrace rfl u).bind ?_)
    rintro _ v _ ⟨-, rfl⟩ hlt₆
    obtain ⟨right, w, rights, hright, hder₇, hrights, hlt₇⟩ :=
      ((rightBound_agrees file hn v (by omega)).mono (Nat.le_succ _)).optional (Nat.lt_succ_self _)
    simp only [hright]
    refine .taken hder₇ ⟨sign, left, word, es, right, ?_, ?_⟩ (.tokens (by omega))
    · rw [boundEnd_eq hrights]
    · have hword (seen : Pair.AggregateParts) (span : Span) :
          Pair.aggregatePart file seen ⟨.aggregateFunction, span, word.text, []⟩ =
            .ok { seen with function := word.name } := by
        rw [← word_eq word .aggregateFunction span]
        rfl
      simp only [List.nil_append, List.foldlM_append, foldlM_sign hsigns, foldlM_leftGuard hlefts,
        List.foldlM_cons, hword, foldlM_elements hall, foldlM_rightGuard hrights, ok_bind]
  · rintro a q ps ⟨sign, left, function, elements, right, rfl, hfold⟩
    refine ⟨rfl, _, rfl, rfl, ?_⟩
    simp only [Pair.aggregateLiteral, hfold]
    rfl

end Aggregates

section Bodies

/-- The end of an element of a body. -/
def BodyElement.stop : BodyElement → Position
  | .conditional element => element.span.stop
  | .aggregate element => element.span.stop

/-- The view of an element of a body. -/
def BodyElementView (file : Path) : View BodyElement := fun e q ps =>
  e.stop = q.position ∧ ∃ pair : Pair, ps = [pair] ∧ pair.bodyElement file = .ok (e.lower file)

theorem bodyElement_agrees (file : Path) (hn : 2 * m ≤ n) :
    Agrees m bodyLiteral (BodyElementView file) (bodyElement n) := by
  intro p hp
  refine Mirrors.or ((aggregate_agrees file hn p hp).map ?_)
    ((bodyLiteral_agrees file hn p hp).map ?_)
  · rintro a q ps ⟨hstop, pair, rfl, hrule, hpair⟩
    exact ⟨hstop, _, rfl, by simp only [Pair.bodyElement, hrule, hpair, BodyElement.lower]⟩
  · rintro c q ps ⟨hstop, pair, rfl, hrule, hpair⟩
    exact ⟨hstop, _, rfl, by simp only [Pair.bodyElement, hrule, hpair, BodyElement.lower]⟩

theorem mapM_bodyElement {es : List BodyElement} (h : ManyView (BodyElementView file) es ps) :
    ps.mapM (Pair.bodyElement file) = .ok (lowerBody file es) := by
  induction h with
  | nil => rfl
  | cons h hmore ih =>
    obtain ⟨-, pair, rfl, hpair⟩ := h
    rw [List.singleton_append, List.mapM_cons, hpair, ih]
    rfl

/-- The view of a body. -/
def BodyView (file : Path) : View (List BodyElement) := fun es _ ps =>
  ∃ pair : Pair, ps = [pair] ∧ pair.rule = .body ∧ pair.body file = .ok (lowerBody file es)

theorem body_agrees (file : Path) (hn : 2 * m ≤ n) :
    Agrees m (.rule .body) (BodyView file) (body n) := by
  intro p hp
  have hsep : Separates (fun s => decide (s = .comma ∨ s = .semicolon))
      (Expr.spellings [",", ";"]) := by
    have hpart : UpwardClosed Punct.text Punct.all [.comma, .semicolon] :=
      closed_symbols (by decide) (by decide) (by decide)
    exact fun p => ((punctWith_picks hpart (by simp)).tracks p).imp fun _ _ _ h => h.2
  refine Mirrors.rule (R := fun es _ ps => ManyView (BodyElementView file) es ps) rfl ?_ ?_
  · exact separated_tracks BodyElement.stop (fun first more _ => first :: more) hsep
      (bodyElement_agrees file hn) (fun _ _ _ h => h.1) (fun _ _ => rfl) hp (by omega)
      (fun _ _ _ _ h => h)
  · intro es q ps hall
    exact ⟨_, rfl, rfl, mapM_bodyElement hall⟩

end Bodies

section Heads

/-- The view of a head. -/
def HeadView (file : Path) : View Head := fun h _ ps =>
  ∃ pair : Pair, ps = [pair] ∧ pair.rule = .head ∧ pair.head file = .ok (h.lower file)

theorem foldlM_choice_left {left : Option Bound}
    (h : OptionView (BoundView file .leftGuard) p left q ps) :
    ps.foldlM (Pair.choicePart file) {} = .ok { left := left.map (Bound.lower file) } := by
  cases h with
  | missing => rfl
  | there h =>
    obtain ⟨-, pair, rfl, hrule, hpair⟩ := h
    simp only [List.foldlM_cons, Pair.choicePart, hrule, hpair]
    rfl

theorem foldlM_choice_right {right : Option Bound} {seen : Pair.ChoiceParts}
    (h : OptionView (BoundView file .rightGuard) p right q ps) (hseen : seen.right = none) :
    ps.foldlM (Pair.choicePart file) seen =
      .ok { seen with right := right.map (Bound.lower file) } := by
  obtain ⟨left, elements, right'⟩ := seen
  obtain rfl := hseen
  cases h with
  | missing => rfl
  | there h =>
    obtain ⟨-, pair, rfl, hrule, hpair⟩ := h
    simp only [List.foldlM_cons, Pair.choicePart, hrule, hpair]
    rfl

theorem foldlM_choice_elements {cs : List Conditional} (h : ManyView (HeadLiteralView file) cs ps)
    (seen : Pair.ChoiceParts) : ps.foldlM (Pair.choicePart file) seen =
      .ok { seen with elements := seen.elements ++ cs.map (Conditional.lower file) } := by
  induction h generalizing seen with
  | nil => simp; rfl
  | @cons c q _ more qs h hmore ih =>
    obtain ⟨-, pair, rfl, hrule, hpair⟩ := h
    have hfirst : Pair.choicePart file seen pair =
        .ok { seen with elements := seen.elements ++ [c.lower file] } := by
      simp only [Pair.choicePart, hrule, hpair]
      rfl
    rw [List.singleton_append, List.foldlM_cons, hfirst, ok_bind, ih]
    simp

theorem choice_agrees (file : Path) (hn : 2 * m ≤ n) : Agrees m (.rule .choice)
    (fun c _ ps => ∃ pair : Pair, ps = [pair] ∧ pair.rule = .choice ∧
      pair.choice file = .ok (c.lower file))
    (choice n) := by
  intro p hp
  refine Mirrors.rule (R := fun c q ps => ∃ left elements right,
    c = Choice.mk ⟨beginOf p.tokens, q.position⟩ left elements right ∧
      ps.foldlM (Pair.choicePart file) {} = .ok ⟨left.map (Bound.lower file),
        elements.map (Conditional.lower file), right.map (Bound.lower file)⟩) rfl ?_ ?_
  · obtain ⟨left, r, lefts, hleft, hder₁, hlefts, hlt₁⟩ :=
      ((leftBound_agrees file hn p hp).mono (Nat.le_succ _)).optional (Nat.lt_succ_self _)
    simp only [choice, hleft]
    refine .seq hder₁
      (((symbol_tracks .openBrace rfl r).mono (show _ ≤ p.tokens.length by omega)).bind ?_)
    rintro _ t _ ⟨-, rfl⟩ hlt₂
    obtain ⟨cs, u, elements, hcs, hder₃, hall, hle₃⟩ := listed_exists (n := n) .semicolon rfl
      (headLiteral_agrees file hn) (show t.tokens.length < m by omega) (by omega)
    simp only [semicolons_eq, hcs]
    refine .seq hder₃ ((symbol_tracks .closeBrace rfl u).bind ?_)
    rintro _ v _ ⟨-, rfl⟩ hlt₄
    obtain ⟨right, w, rights, hright, hder₅, hrights, hlt₅⟩ :=
      ((rightBound_agrees file hn v (by omega)).mono (Nat.le_succ _)).optional (Nat.lt_succ_self _)
    simp only [hright]
    refine .taken hder₅ ⟨left, cs, right, ?_, ?_⟩ (.tokens (by omega))
    · rw [boundEnd_eq hrights]
    · simp only [List.nil_append, List.foldlM_append, foldlM_choice_left hlefts,
        foldlM_choice_elements hall, foldlM_choice_right hrights, ok_bind]
  · rintro c q ps ⟨left, elements, right, rfl, hfold⟩
    refine ⟨_, rfl, rfl, ?_⟩
    simp only [Pair.choice, hfold]
    rfl

theorem mapM_headLiteral {cs : List Conditional} (h : ManyView (HeadLiteralView file) cs ps) :
    ps.mapM (Pair.headLiteral file) = .ok (cs.map (Conditional.lower file)) := by
  induction h with
  | nil => rfl
  | cons h hmore ih =>
    obtain ⟨-, pair, rfl, -, hpair⟩ := h
    rw [List.singleton_append, List.mapM_cons, hpair, ih]
    rfl

/-- A lone element of a head without condition stands for its literal. -/
theorem loneLiteral?_eq (first : Conditional) (rest : List Conditional) :
    Pair.loneLiteral? ((first :: rest).map (Conditional.lower file)) =
      if rest.isEmpty && first.condition.isEmpty then some (first.literal.lower file)
        else none := by
  cases rest with
  | cons second rest => rfl
  | nil =>
    have hcondition : (first.lower file).sequence .condition =
        lowerCondition file first.condition := rfl
    have hliteral : (first.lower file).node? .literal = some (first.literal.lower file) := rfl
    simp [Pair.loneLiteral?, hcondition, hliteral, lowerCondition]

theorem disjunction_agrees (file : Path) (hn : 2 * m ≤ n) : Agrees m (.rule .disjunction)
    (fun h _ ps => ∃ pair : Pair, ps = [pair] ∧ pair.rule = .disjunction ∧
      pair.disjunction file = .ok (h.lower file)) (disjunction n) := by
  intro p hp
  have hsep : Separates (fun s => decide (s = .semicolon ∨ s = .bar))
      (Expr.spellings [";", "|"]) := by
    have hpart : UpwardClosed Punct.text Punct.all [.semicolon, .bar] :=
      closed_symbols (by decide) (by decide) (by decide)
    exact fun p => ((punctWith_picks hpart (by simp)).tracks p).imp fun _ _ _ h => h.2
  refine Mirrors.rule (R := fun h q ps => ∃ first rest,
    h = Head.disjunction ⟨beginOf p.tokens, q.position⟩ first rest ∧
      ManyView (HeadLiteralView file) (first :: rest) ps) rfl ?_ ?_
  · exact separated_tracks (fun c : Conditional => c.span.stop)
      (fun first more stop => Head.disjunction ⟨beginOf p.tokens, stop⟩ first more) hsep
      (headLiteral_agrees file hn) (fun _ _ _ h => h.1) (fun _ _ => rfl) hp (by omega)
      (fun _ _ _ _ h => ⟨_, _, rfl, h⟩)
  · rintro h q ps ⟨first, rest, rfl, hall⟩
    refine ⟨_, rfl, rfl, ?_⟩
    simp only [Pair.disjunction, mapM_headLiteral hall, ok_bind, loneLiteral?_eq, Head.lower]
    cases rest.isEmpty && first.condition.isEmpty <;> rfl

theorem head_agrees (file : Path) (hn : 2 * m ≤ n) :
    Agrees m (.rule .head) (HeadView file) (head n) := by
  intro p hp
  refine Mirrors.rule (R := fun h _ ps => ∃ pair : Pair, ps = [pair] ∧
    (pair.rule = .choice ∧ pair.choice file = .ok (h.lower file) ∨
      pair.rule = .disjunction ∧ pair.disjunction file = .ok (h.lower file))) rfl ?_ ?_
  · refine Mirrors.or ((choice_agrees file hn p hp).map ?_)
      ((disjunction_agrees file hn p hp).imp ?_)
    · rintro c q ps ⟨pair, rfl, h⟩
      exact ⟨_, rfl, .inl h⟩
    · rintro c q ps ⟨pair, rfl, h⟩
      exact ⟨_, rfl, .inr h⟩
  · rintro h q ps ⟨pair, rfl, ⟨hrule, hpair⟩ | ⟨hrule, hpair⟩⟩ <;>
      exact ⟨_, rfl, rfl, by
        simp only [Pair.head, Pair.first, next, Except.map, ok_bind, hrule, hpair]⟩

end Heads

end AspAtlas.Surface
