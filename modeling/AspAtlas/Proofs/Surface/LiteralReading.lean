import AspAtlas.Proofs.Surface.Reading
/-!
Literals, conditions, aggregates, heads and bodies lie where they are read.
-/
namespace AspAtlas.Surface

variable {n : Nat} {ts rest : List Token}

theorem negator_advances : Advances negator := by
  intro ts a rest h hts
  obtain ⟨begin, stop, rfl⟩ := negator_steps h
  exact hts.advance (by simp)

theorem negations_le {sign : Negations} (h : negations ts = (sign, rest)) (hts : Ascending ts) :
    Ascending rest ∧ beginOf ts ≤ beginOf rest := by
  rcases negations_steps h with ⟨-, -, rfl⟩ | ⟨_, left, hfirst, hrest⟩
  · exact ⟨hts, le_refl _⟩
  · obtain ⟨hleft, hlt⟩ := negator_advances hfirst hts
    rcases hrest with ⟨-, -, rfl⟩ | ⟨_, hsecond, -⟩
    · exact ⟨hleft, hlt.le⟩
    · obtain ⟨hrest, hlt'⟩ := negator_advances hsecond hleft
      exact ⟨hrest, (hlt.trans hlt').le⟩

theorem separator_advances : Advances separator := by
  intro ts a rest h hts
  obtain ⟨stop, hcolon⟩ := separator_steps h
  exact (punct_ends .colon).advances hcolon hts

theorem boolean_reads : Reads Assertion.In boolean := by
  intro ts a rest h hts
  obtain ⟨word, begin, stop, rfl, -, rfl⟩ := boolean_steps h
  obtain ⟨hlt, hle, hrest⟩ := hts.tail (by simp)
  exact ⟨hrest, le_refl _, hlt, hle⟩

theorem comparison_reads : Reads Assertion.In (comparison n) := by
  intro ts a rest h hts
  obtain ⟨left, ts₁, operator, ts₂, right, hleft, hoperator, hright, rfl⟩ := comparison_steps h
  obtain ⟨hrest₁, hleft⟩ := term_reads n hleft hts
  obtain ⟨hrest₂, hlt⟩ := punctWith_advances Punct.isComparison hoperator hrest₁
  obtain ⟨hrest₃, hright⟩ := term_reads n hright hrest₂
  have hfirst := Term.spanned.lt hleft
  have hwithin := Term.spanned.within hright
  have hstart := (hfirst.trans hlt).trans_le hwithin.left
  refine ⟨hrest₃, ⟨le_refl _, hstart.trans hwithin.proper, hwithin.right⟩, _, hleft, ?_⟩
  exact Term.spanned.move hright (hwithin.tight.mono hlt.le (le_refl _))

theorem atom_reads : Reads Atom.In (atom n) := by
  intro ts a rest h hts
  obtain ⟨minus, ts₁, name, ts₂, hminus, hname, hfound⟩ := atom_steps h
  obtain ⟨hrest₁, hle⟩ := optional_le (punct_ends .minus).advances hminus hts
  obtain ⟨hrest₂, hlt⟩ := identifier_advances hname hrest₁
  have hstart := hle.trans_lt hlt
  rcases hfound with ⟨pool, stop, harguments, rfl⟩ | ⟨-, rfl, rfl⟩
  · obtain ⟨hrest, hstop, hhi, hin⟩ := argumentsOf_reads (term_reads n) harguments hrest₂
    refine ⟨hrest, ⟨le_refl _, hstart.trans hstop, hhi⟩, ?_⟩
    intro found hfound
    exact Pool.mono (hin found hfound) hstart.le (le_refl _)
  · exact ⟨hrest₂, ⟨le_refl _, hstart, le_refl _⟩, by simp⟩

theorem assertion_reads : Reads Assertion.In (assertion n) :=
  boolean_reads.or <| comparison_reads.or <| atom_reads.map id

theorem literal_reads : Reads Literal.In (literal n) := by
  intro ts a rest h hts
  obtain ⟨sign, left, found, hsign, hfound, rfl⟩ := literal_steps h
  obtain ⟨hrest₁, hle⟩ := negations_le hsign hts
  obtain ⟨hrest₂, hin⟩ := assertion_reads hfound hrest₁
  have hwithin := Assertion.spanned.within hin
  refine ⟨hrest₂, ⟨le_refl _, (hle.trans hwithin.left).trans_lt hwithin.proper, hwithin.right⟩, ?_⟩
  exact Assertion.spanned.move hin (hwithin.tight.mono hle (le_refl _))

/-- A condition goes with the end of its last literal. -/
theorem condition_reads :
    Reads (fun lo hi (x : List Literal × Position) =>
      Row Literal.In lo x.2 x.1 ∧ lo < x.2 ∧ x.2 ≤ hi) (condition n) := by
  intro ts ⟨found, stop⟩ rest h hts
  obtain ⟨_, ts₁, first, ts₂, more, hcolon, hfirst, hmore, rfl, rfl⟩ := condition_steps h
  obtain ⟨hrest₁, hlt⟩ := separator_advances hcolon hts
  obtain ⟨hrest₂, hin⟩ := literal_reads hfirst hrest₁
  obtain ⟨hrest, hrow⟩ := further_row Literal.spanned literal_reads hmore hrest₂
  obtain ⟨htight, hle, hhi⟩ := endOf_row Literal.spanned hrow
  have hnext := Literal.spanned.lt hin
  refine ⟨hrest, ?_, (hlt.trans hnext).trans_le hle, hhi⟩
  exact .cons (Literal.spanned.mono hin hlt.le (le_refl _)) htight

theorem condition?_row {found : List Literal} {stop : Position}
    (h : condition? n ts = ((found, stop), rest)) (hts : Ascending ts) :
    Ascending rest ∧ Row Literal.In (beginOf ts) stop found ∧ beginOf ts ≤ stop ∧
      stop ≤ beginOf rest := by
  rcases condition?_steps h with hcondition | ⟨-, rfl, rfl, rfl⟩
  · obtain ⟨hrest, hrow, hlt, hle⟩ := condition_reads hcondition hts
    exact ⟨hrest, hrow, hlt.le, hle⟩
  · exact ⟨hts, .nil (le_refl _), le_refl _, le_refl _⟩

theorem conditional_reads : Reads Conditional.In (conditional n) := by
  intro ts a rest h hts
  obtain ⟨first, left, found, stop, hfirst, hcondition, rfl⟩ := conditional_steps h
  obtain ⟨hrest₁, hin⟩ := literal_reads hfirst hts
  obtain ⟨hrest, hrow, hle, hhi⟩ := condition?_row hcondition hrest₁
  have hlt := Literal.spanned.lt hin
  exact ⟨hrest, ⟨le_refl _, hlt.trans_le hle, hhi⟩, _, hin, hrow⟩

/-- The symbol that is taken next ends behind its begin. -/
theorem stop_of_punctWith {accept : Punct → Bool} {symbol : Punct}
    (h : punctWith accept ts = some (symbol, rest)) (hts : Ascending ts) :
    beginOf ts < (ts.head?.map Token.stop).getD (beginOf ts) ∧
      (ts.head?.map Token.stop).getD (beginOf ts) ≤ beginOf rest := by
  obtain ⟨begin, stop, rfl, -⟩ := punctWith_steps h
  obtain ⟨hlt, hle, -⟩ := hts.tail (by simp)
  exact ⟨hlt, hle⟩

theorem leftBound_reads : Reads Bound.In (leftBound n) := by
  intro ts a rest h hts
  obtain ⟨found, left, hfound, hbound⟩ := leftBound_steps h
  obtain ⟨hrest₁, hin⟩ := term_reads n hfound hts
  have hlt := Term.spanned.lt hin
  rcases hbound with ⟨operator, hoperator, rfl⟩ | ⟨-, rfl, rfl⟩
  · obtain ⟨hrest, -⟩ := punctWith_advances Punct.isComparison hoperator hrest₁
    obtain ⟨hstop, hhi⟩ := stop_of_punctWith hoperator hrest₁
    exact ⟨hrest, ⟨le_refl _, hlt.trans hstop, hhi⟩, Term.spanned.mono hin (le_refl _) hstop.le⟩
  · exact ⟨hrest₁, ⟨le_refl _, hlt, le_refl _⟩, hin⟩

theorem rightBound_reads : Reads Bound.In (rightBound n) := by
  intro ts a rest h hts
  obtain ⟨operator, left, found, hoperator, hfound, rfl⟩ := rightBound_steps h
  obtain ⟨hrest₁, hle⟩ := optional_le (punctWith_advances Punct.isComparison) hoperator hts
  obtain ⟨hrest₂, hin⟩ := term_reads n hfound hrest₁
  have hwithin := Term.spanned.within hin
  refine ⟨hrest₂, ⟨le_refl _, (hle.trans hwithin.left).trans_lt hwithin.proper, hwithin.right⟩, ?_⟩
  exact Term.spanned.move hin (hwithin.tight.mono hle (le_refl _))

/-- A right bound reaches up to the end of its aggregate. -/
theorem boundEnd_row {right : Option Bound} {lo : Position}
    (h : Row Bound.In lo (beginOf ts) right.toList) :
    Row Bound.In lo (boundEnd right ts) right.toList ∧ lo ≤ boundEnd right ts ∧
      boundEnd right ts ≤ beginOf ts := by
  cases right with
  | none =>
    have hle := h.le Bound.spanned
    exact ⟨h, hle, le_refl _⟩
  | some bound =>
    obtain ⟨hrow, hle⟩ := h.tight Bound.spanned rfl
    exact ⟨hrow, hrow.le Bound.spanned, hle⟩

theorem aggregateElement_reads : Reads AggregateElement.In (aggregateElement n) := by
  intro ts a rest h hts
  rcases aggregateElement_steps h with ⟨terms, left, found, stop, hterms, hcondition, rfl⟩ |
    ⟨-, found, stop, hcondition, rfl⟩
  · obtain ⟨hleft, hin⟩ := termsOf_reads (term_reads n) hterms hts
    obtain ⟨hrest, hrow, hle, hhi⟩ := condition?_row hcondition hleft
    have hlt := Terms.spanned.lt hin
    exact ⟨hrest, ⟨le_refl _, hlt.trans_le hle, hhi⟩, _, .singleton hin, hrow⟩
  · obtain ⟨hrest, hrow, hlt, hhi⟩ := condition_reads hcondition hts
    exact ⟨hrest, ⟨le_refl _, hlt, hhi⟩, _, .nil (le_refl _), hrow⟩

theorem aggregate_reads : Reads Aggregate.In (aggregate n) := by
  intro ts a rest h hts
  obtain ⟨sign, ts₁, left, ts₂, function, ts₃, opened, ts₄, elements, ts₅, closed, ts₆, right,
    hsign, hleft, hfunction, hopening, helements, hclosing, hright, rfl⟩ := aggregate_steps h
  obtain ⟨hrest₁, h₁⟩ := negations_le hsign hts
  obtain ⟨hrest₂, hleft⟩ := optional_row leftBound_reads hleft hrest₁
  obtain ⟨hrest₃, h₃⟩ := keywordWith_advances isAggregateFunction hfunction hrest₂
  obtain ⟨hrest₄, h₄⟩ := (punct_ends .openBrace).advances hopening hrest₃
  obtain ⟨hrest₅, helements⟩ :=
    semicolons_row AggregateElement.spanned aggregateElement_reads helements hrest₄
  obtain ⟨hrest₆, h₆⟩ := (punct_ends .closeBrace).advances hclosing hrest₅
  obtain ⟨hrest₇, hright⟩ := optional_row rightBound_reads hright hrest₆
  obtain ⟨htight, hle, hhi⟩ := boundEnd_row hright
  have h₂ := hleft.le Bound.spanned
  have h₅ := helements.le AggregateElement.spanned
  have hmiddle := (h₃.trans h₄).trans_le h₅
  have hproper := ((h₁.trans h₂).trans_lt (hmiddle.trans h₆)).trans_le hle
  refine ⟨hrest₇, ⟨le_refl _, hproper, hhi⟩, _, _,
    hleft.mono Bound.spanned h₁ (le_refl _), ?_, htight⟩
  exact helements.mono AggregateElement.spanned (h₃.trans h₄).le h₆.le

theorem bodyElement_reads : Reads BodyElement.In (bodyElement n) := by
  have haggregate : Reads BodyElement.In fun ts =>
      (aggregate n ts).map fun r => (.aggregate r.1, r.2) := aggregate_reads.map id
  have hconditional : Reads BodyElement.In fun ts =>
      (conditional n ts).map fun r => (.conditional r.1, r.2) := conditional_reads.map id
  exact haggregate.or hconditional

theorem body_reads : Reads (fun lo hi found => Row BodyElement.In lo hi found ∧ lo < hi)
    (body n) := by
  intro ts a rest h hts
  obtain ⟨first, left, more, hfirst, hmore, rfl⟩ := body_steps h
  obtain ⟨hrest₁, hin⟩ := bodyElement_reads hfirst hts
  obtain ⟨hrest, hrow⟩ := further_row BodyElement.spanned bodyElement_reads hmore hrest₁
  have hlt := BodyElement.spanned.lt hin
  exact ⟨hrest, .cons hin hrow, hlt.trans_le (hrow.le BodyElement.spanned)⟩

theorem choice_reads : Reads Choice.In (choice n) := by
  intro ts a rest h hts
  obtain ⟨left, ts₁, opened, ts₂, elements, ts₃, closed, ts₄, right, hleft, hopening,
    helements, hclosing, hright, rfl⟩ := choice_steps h
  obtain ⟨hrest₁, hleft⟩ := optional_row leftBound_reads hleft hts
  obtain ⟨hrest₂, h₂⟩ := (punct_ends .openBrace).advances hopening hrest₁
  obtain ⟨hrest₃, helements⟩ :=
    semicolons_row Conditional.spanned conditional_reads helements hrest₂
  obtain ⟨hrest₄, h₄⟩ := (punct_ends .closeBrace).advances hclosing hrest₃
  obtain ⟨hrest₅, hright⟩ := optional_row rightBound_reads hright hrest₄
  obtain ⟨htight, hle, hhi⟩ := boundEnd_row hright
  have h₁ := hleft.le Bound.spanned
  have h₃ := helements.le Conditional.spanned
  have hproper := ((h₁.trans_lt h₂).trans (h₃.trans_lt h₄)).trans_le hle
  refine ⟨hrest₅, ⟨le_refl _, hproper, hhi⟩, _, _, hleft, ?_, htight⟩
  exact helements.mono Conditional.spanned h₂.le h₄.le

theorem disjunction_reads : Reads Head.In (disjunction n) := by
  intro ts a rest h hts
  obtain ⟨first, left, more, hfirst, hmore, rfl⟩ := disjunction_steps h
  obtain ⟨hrest₁, hin⟩ := conditional_reads hfirst hts
  obtain ⟨hrest, hrow⟩ := further_row Conditional.spanned conditional_reads hmore hrest₁
  obtain ⟨htight, hle, hhi⟩ := endOf_row Conditional.spanned hrow
  have hlt := Conditional.spanned.lt hin
  exact ⟨hrest, ⟨le_refl _, hlt.trans_le hle, hhi⟩, .cons hin htight⟩

theorem head_reads : Reads Head.In (head n) := by
  have hchoice : Reads Head.In fun ts =>
      (choice n ts).map fun r => (.choice r.1, r.2) := choice_reads.map id
  exact hchoice.or disjunction_reads

end AspAtlas.Surface
