import AspAtlas.Proofs.Surface.Proper
import AspAtlas.Proofs.Surface.StatementReading
/-!
Proper literals, heads, bodies and statements: what the readers of a program give.
-/
namespace AspAtlas.Surface

variable {n : Nat} {ts rest : List Token}

section Literals

theorem separator_gives : Gives separator fun _ => True :=
  fun _ _ _ hts h => ⟨trivial, hts.of_suffix (separator_consumes h).suffix⟩

theorem boolean_gives : Gives boolean Assertion.Proper := by
  intro ts a rest hts h
  obtain ⟨word, begin, stop, rfl, hword, rfl⟩ := boolean_steps h
  exact ⟨hword, hts.tail⟩

theorem comparison_gives : Gives (comparison n) Assertion.Proper := by
  intro ts a rest hts h
  obtain ⟨left, ts₁, operator, ts₂, right, hleft, hoperator, hright, rfl⟩ := comparison_steps h
  obtain ⟨hleft, hrest₁⟩ := term_gives n hts hleft
  obtain ⟨hoperator, hrest₂⟩ := punctWith_gives Punct.isComparison hrest₁ hoperator
  obtain ⟨hright, hrest⟩ := term_gives n hrest₂ hright
  exact ⟨⟨hleft, hoperator, hright⟩, hrest⟩

theorem atom_gives : Gives (atom n) Atom.Proper := by
  intro ts a rest hts h
  obtain ⟨minus, ts₁, name, ts₂, hminus, hname, hfound⟩ := atom_steps h
  obtain ⟨-, hrest₁⟩ := (punct_gives .minus).optional hts hminus
  obtain ⟨hspelled, hrest₂⟩ := identifier_gives hrest₁ hname
  rcases hfound with ⟨pool, stop, harguments, rfl⟩ | ⟨-, rfl, rfl⟩
  · obtain ⟨hpool, hrest⟩ := argumentsOf_gives (term_gives n) hrest₂ harguments
    exact ⟨⟨hspelled, hpool⟩, hrest⟩
  · exact ⟨⟨hspelled, by simp⟩, hrest₂⟩

theorem assertion_gives : Gives (assertion n) Assertion.Proper :=
  boolean_gives.or <| comparison_gives.or <| atom_gives.map fun _ h => h

/-- The first unit of a predicate without a sign is its name. -/
theorem assertion_name {a : Atom} (h : assertion n ts = some (.symbolic a, rest))
    (hsign : a.negated = false) : ∃ t more, ts = t :: more ∧ t.lexeme = .identifier a.name := by
  rcases assertion_steps h with h | h | ⟨found, h, ha⟩
  · obtain ⟨word, begin, stop, -, -, ha⟩ := boolean_steps h
    cases ha
  · obtain ⟨left, ts₁, operator, ts₂, right, -, -, -, ha⟩ := comparison_steps h
    cases ha
  · cases ha
    obtain ⟨minus, ts₁, name, ts₂, hminus, hname, hfound⟩ := atom_steps h
    have hboth : a.negated = minus.isSome ∧ a.name = name := by
      rcases hfound with ⟨pool, stop, -, rfl⟩ | ⟨-, -, rfl⟩ <;> exact ⟨rfl, rfl⟩
    obtain ⟨hnegated, rfl⟩ := hboth
    rcases optional_steps hminus with ⟨stop, -, rfl⟩ | ⟨-, rfl, rfl⟩
    · simp [hsign] at hnegated
    · obtain ⟨begin, stop, rfl⟩ := identifier_steps hname
      exact ⟨_, _, rfl, rfl⟩

/-- Behind fewer than two negations stands none. -/
theorem negations_left {sign : Negations} {t : Token} {more : List Token}
    (h : negations ts = (sign, t :: more)) (ht : t.lexeme = .identifier "not") : sign = .twice := by
  obtain ⟨lexeme, begin, stop⟩ := t
  subst ht
  rcases negations_steps h with ⟨hnone, -, rfl⟩ | ⟨_, left, -, ⟨hnone, -, rfl⟩ | ⟨_, -, rfl⟩⟩
  · cases hnone
  · cases hnone
  · rfl

theorem literal_gives : Gives (literal n) Literal.Proper := by
  intro ts a rest hts h
  obtain ⟨sign, left, found, hsign, hfound, rfl⟩ := literal_steps h
  obtain ⟨hproper, hrest⟩ := assertion_gives (hts.of_suffix (negations_suffix hsign)) hfound
  refine ⟨⟨hproper, fun a ha hnegated hname => ?_⟩, hrest⟩
  obtain rfl : found = .symbolic a := ha
  obtain ⟨t, more, rfl, ht⟩ := assertion_name hfound hnegated
  rw [hname] at ht
  exact negations_left hsign ht

theorem condition_gives :
    Gives (condition n) fun found => found.1 ≠ [] ∧ ∀ l ∈ found.1, l.Proper := by
  intro ts ⟨found, stop⟩ rest hts h
  obtain ⟨_, ts₁, first, ts₂, more, hcolon, hfirst, hmore, rfl, rfl⟩ := condition_steps h
  obtain ⟨hfirst, hrest₂⟩ := literal_gives (separator_gives hts hcolon).2 hfirst
  obtain ⟨hmore, hrest⟩ := literal_gives.further hrest₂ hmore
  exact ⟨⟨List.cons_ne_nil _ _, List.forall_mem_cons.mpr ⟨hfirst, hmore⟩⟩, hrest⟩

theorem condition?_gives {found : List Literal} {stop : Position} (hts : Sound ts)
    (h : condition? n ts = ((found, stop), rest)) : (∀ l ∈ found, l.Proper) ∧ Sound rest := by
  rcases condition?_steps h with hcondition | ⟨-, rfl, -, rfl⟩
  · obtain ⟨⟨-, hproper⟩, hrest⟩ := condition_gives hts hcondition
    exact ⟨hproper, hrest⟩
  · exact ⟨by simp, hts⟩

theorem conditional_gives : Gives (conditional n) Conditional.Proper := by
  intro ts a rest hts h
  obtain ⟨first, left, found, stop, hfirst, hcondition, rfl⟩ := conditional_steps h
  obtain ⟨hfirst, hrest₁⟩ := literal_gives hts hfirst
  obtain ⟨hfound, hrest⟩ := condition?_gives hrest₁ hcondition
  exact ⟨⟨hfirst, hfound⟩, hrest⟩

theorem leftBound_gives : Gives (leftBound n) Bound.Proper := by
  intro ts a rest hts h
  obtain ⟨found, left, hfound, hbound⟩ := leftBound_steps h
  obtain ⟨hproper, hrest₁⟩ := term_gives n hts hfound
  rcases hbound with ⟨operator, hoperator, rfl⟩ | ⟨-, rfl, rfl⟩
  · obtain ⟨haccept, hrest⟩ := punctWith_gives Punct.isComparison hrest₁ hoperator
    exact ⟨⟨by simpa using haccept, hproper⟩, hrest⟩
  · exact ⟨⟨by simp, hproper⟩, hrest₁⟩

theorem rightBound_gives : Gives (rightBound n) Bound.Proper := by
  intro ts a rest hts h
  obtain ⟨operator, left, found, hoperator, hfound, rfl⟩ := rightBound_steps h
  obtain ⟨haccept, hrest₁⟩ := (punctWith_gives Punct.isComparison).optional hts hoperator
  obtain ⟨hproper, hrest⟩ := term_gives n hrest₁ hfound
  exact ⟨⟨haccept, hproper⟩, hrest⟩

theorem aggregateElement_gives : Gives (aggregateElement n) AggregateElement.Proper := by
  intro ts a rest hts h
  rcases aggregateElement_steps h with ⟨terms, left, found, stop, hterms, hcondition, rfl⟩ |
    ⟨-, found, stop, hcondition, rfl⟩
  · obtain ⟨hproper, hrest₁⟩ := termsOf_gives (term_gives n) hts hterms
    obtain ⟨hfound, hrest⟩ := condition?_gives hrest₁ hcondition
    exact ⟨⟨by simpa using hproper, hfound, by simp⟩, hrest⟩
  · obtain ⟨⟨hne, hfound⟩, hrest⟩ := condition_gives hts hcondition
    exact ⟨⟨by simp, hfound, fun _ => hne⟩, hrest⟩

theorem aggregate_gives : Gives (aggregate n) Aggregate.Proper := by
  intro ts a rest hts h
  obtain ⟨sign, ts₁, left, ts₂, function, ts₃, opened, ts₄, elements, ts₅, closed, ts₆, right,
    hsign, hleft, hfunction, hopening, helements, hclosing, hright, rfl⟩ := aggregate_steps h
  obtain ⟨hleft, hrest₂⟩ := leftBound_gives.optional (hts.of_suffix (negations_suffix hsign)) hleft
  obtain ⟨hfunction, hrest₃⟩ := keywordWith_gives isAggregateFunction hrest₂ hfunction
  obtain ⟨-, hrest₄⟩ := punct_gives .openBrace hrest₃ hopening
  obtain ⟨helements, hrest₅⟩ := aggregateElement_gives.semicolons hrest₄ helements
  obtain ⟨-, hrest₆⟩ := punct_gives .closeBrace hrest₅ hclosing
  obtain ⟨hright, hrest⟩ := rightBound_gives.optional hrest₆ hright
  exact ⟨⟨hleft, hfunction, helements, hright⟩, hrest⟩

theorem bodyElement_gives : Gives (bodyElement n) BodyElement.Proper := by
  have haggregate : Gives
      (fun ts => (aggregate n ts).map fun x => (.aggregate x.1, x.2)) BodyElement.Proper :=
    aggregate_gives.map fun _ h => h
  have hconditional : Gives (fun ts => (conditional n ts).map fun x => (.conditional x.1, x.2))
      BodyElement.Proper :=
    conditional_gives.map fun _ h => h
  exact haggregate.or hconditional

theorem body_gives : Gives (body n) fun found => ∀ e ∈ found, e.Proper := by
  intro ts a rest hts h
  obtain ⟨first, left, more, hfirst, hmore, rfl⟩ := body_steps h
  obtain ⟨hfirst, hrest₁⟩ := bodyElement_gives hts hfirst
  obtain ⟨hmore, hrest⟩ := bodyElement_gives.further hrest₁ hmore
  exact ⟨List.forall_mem_cons.mpr ⟨hfirst, hmore⟩, hrest⟩

theorem choice_gives : Gives (choice n) Choice.Proper := by
  intro ts a rest hts h
  obtain ⟨left, ts₁, opened, ts₂, elements, ts₃, closed, ts₄, right, hleft, hopening,
    helements, hclosing, hright, rfl⟩ := choice_steps h
  obtain ⟨hleft, hrest₁⟩ := leftBound_gives.optional hts hleft
  obtain ⟨-, hrest₂⟩ := punct_gives .openBrace hrest₁ hopening
  obtain ⟨helements, hrest₃⟩ := conditional_gives.semicolons hrest₂ helements
  obtain ⟨-, hrest₄⟩ := punct_gives .closeBrace hrest₃ hclosing
  obtain ⟨hright, hrest⟩ := rightBound_gives.optional hrest₄ hright
  exact ⟨⟨hleft, helements, hright⟩, hrest⟩

theorem disjunction_gives : Gives (disjunction n) Head.Proper := by
  intro ts a rest hts h
  obtain ⟨first, left, more, hfirst, hmore, rfl⟩ := disjunction_steps h
  obtain ⟨hfirst, hrest₁⟩ := conditional_gives hts hfirst
  obtain ⟨hmore, hrest⟩ := conditional_gives.further hrest₁ hmore
  exact ⟨⟨hfirst, hmore⟩, hrest⟩

theorem head_gives : Gives (head n) Head.Proper := by
  have hchoice : Gives (fun ts => (choice n ts).map fun x => (.choice x.1, x.2)) Head.Proper :=
    choice_gives.map fun _ h => h
  exact hchoice.or disjunction_gives

end Literals

section Statements

theorem includeStatement_gives : Gives includeStatement Statement.Proper := by
  intro ts a rest hts h
  obtain ⟨_, target, begin, stop, left, last, hword, hdot, rfl⟩ := includeStatement_steps h
  obtain ⟨-, hrest₁⟩ := keyword_gives .includes hts hword
  exact ⟨trivial, (endDot_gives hrest₁.tail hdot).2⟩

theorem bracketedName_gives : Gives bracketedName fun _ => True := by
  intro ts a rest hts h
  obtain ⟨opened, ts₁, name, ts₂, hopening, hname, hclosing⟩ := bracketedName_steps h
  obtain ⟨-, hrest₂⟩ := identifier_gives (punct_gives .openBracket hts hopening).2 hname
  exact punct_gives .closeBracket hrest₂ hclosing

theorem bracketedTerm_gives : Gives (bracketedTerm n) fun found => found.1.Proper := by
  intro ts ⟨found, stop⟩ rest hts h
  obtain ⟨opened, ts₁, ts₂, hopening, hfound, hclosing⟩ := bracketedTerm_steps h
  obtain ⟨hproper, hrest₂⟩ := term_gives n (punct_gives .openBracket hts hopening).2 hfound
  exact ⟨hproper, (punct_gives .closeBracket hrest₂ hclosing).2⟩

theorem constantStatement_gives : Gives (constantStatement n) Statement.Proper := by
  intro ts a rest hts h
  obtain ⟨_, ts₁, name, ts₂, equal, ts₃, value, ts₄, dot, ts₅, hword, hname, hequal, hvalue,
    hdot, hmode⟩ :=
    constantStatement_steps h
  obtain ⟨-, hrest₂⟩ := identifier_gives (keyword_gives .const hts hword).2 hname
  obtain ⟨hproper, hrest₄⟩ := term_gives n (punct_gives .equal hrest₂ hequal).2 hvalue
  obtain ⟨-, hrest₅⟩ := endDot_gives hrest₄ hdot
  rcases hmode with ⟨stop, hmode, rfl⟩ | ⟨-, rfl, rfl⟩
  · exact ⟨hproper, (bracketedName_gives hrest₅ hmode).2⟩
  · exact ⟨hproper, hrest₅⟩

theorem signature_gives : Gives signature fun _ => True := by
  intro ts ⟨name, digits, stop⟩ rest hts h
  obtain ⟨ts₁, slash, ts₂, ts₃, hname, hslash, hdigits, hdot⟩ := signature_steps h
  obtain ⟨-, hrest₁⟩ := identifier_gives hts hname
  have hrest₃ := (punct_gives .slash hrest₁ hslash).2.of_suffix (number_consumes hdigits).suffix
  exact ⟨trivial, (endDot_gives hrest₃ hdot).2⟩

theorem signatureStatement_gives (word : Keyword) (make : Span → String → String → Statement)
    (hmake : ∀ span name digits, (make span name digits).Proper) :
    Gives (signatureStatement word make) Statement.Proper := by
  intro ts a rest hts h
  obtain ⟨_, left, name, digits, stop, hword, hsignature, rfl⟩ := signatureStatement_steps h
  exact ⟨hmake _ _ _, (signature_gives (keyword_gives word hts hword).2 hsignature).2⟩

theorem showAllStatement_gives : Gives showAllStatement Statement.Proper := by
  intro ts a rest hts h
  obtain ⟨_, left, stop, hword, hdot, rfl⟩ := showAllStatement_steps h
  exact ⟨trivial, (endDot_gives (keyword_gives .shows hts hword).2 hdot).2⟩

theorem separatedBody_gives : Gives (separatedBody n) fun found => ∀ e ∈ found, e.Proper := by
  intro ts a rest hts h
  obtain ⟨_, left, hcolon, hbody⟩ := separatedBody_steps h
  exact body_gives (separator_gives hts hcolon).2 hbody

/-- A body that may be missing. -/
theorem optional_body_gives {item : Reader (List BodyElement)} {found : Option (List BodyElement)}
    (h : Gives item fun found => ∀ e ∈ found, e.Proper) (hts : Sound ts)
    (hread : optional item ts = (found, rest)) : (∀ e ∈ found.getD [], e.Proper) ∧ Sound rest := by
  obtain ⟨hfound, hrest⟩ := h.optional hts hread
  refine ⟨?_, hrest⟩
  cases found with
  | none => simp
  | some body => exact hfound body rfl

theorem showTermStatement_gives : Gives (showTermStatement n) Statement.Proper := by
  intro ts a rest hts h
  obtain ⟨_, ts₁, found, ts₂, body, ts₃, stop, hword, hfound, hbody, hdot, rfl⟩ :=
    showTermStatement_steps h
  obtain ⟨hproper, hrest₂⟩ := term_gives n (keyword_gives .shows hts hword).2 hfound
  obtain ⟨hbody, hrest₃⟩ := optional_body_gives separatedBody_gives hrest₂ hbody
  exact ⟨⟨hproper, hbody⟩, (endDot_gives hrest₃ hdot).2⟩

theorem programStatement_gives : Gives (programStatement n) Statement.Proper := by
  intro ts a rest hts h
  obtain ⟨_, ts₁, name, ts₂, names, ts₃, stop, hword, hname, hnames, hdot, rfl⟩ :=
    programStatement_steps h
  obtain ⟨-, hrest₂⟩ := identifier_gives (keyword_gives .program hts hword).2 hname
  have hrest₃ := hrest₂.of_suffix (optional_suffix parameterNames_consumes hnames)
  exact ⟨trivial, (endDot_gives hrest₃ hdot).2⟩

theorem externalStatement_gives : Gives (externalStatement n) Statement.Proper := by
  intro ts a rest hts h
  obtain ⟨_, ts₁, a, ts₂, found, last, ts₃, dot, ts₄, hword, hatom, hcondition, hdot, htype⟩ :=
    externalStatement_steps h
  obtain ⟨hproper, hrest₂⟩ := atom_gives (keyword_gives .external hts hword).2 hatom
  obtain ⟨hcondition, hrest₃⟩ := condition?_gives hrest₂ hcondition
  obtain ⟨-, hrest₄⟩ := endDot_gives hrest₃ hdot
  rcases htype with ⟨type, stop, htype, rfl⟩ | ⟨-, rfl, rfl⟩
  · obtain ⟨htype, hrest⟩ := bracketedTerm_gives hrest₄ htype
    exact ⟨⟨hproper, hcondition, by simpa using htype⟩, hrest⟩
  · exact ⟨⟨hproper, hcondition, by simp⟩, hrest₄⟩

theorem priority_gives : Gives (priority n) Term.Proper := by
  intro ts a rest hts h
  obtain ⟨sign, left, hsign, hterm⟩ := priority_steps h
  exact term_gives n (punct_gives .atSign hts hsign).2 hterm

theorem weight_gives : Gives (weight n) Weight.Proper := by
  intro ts a rest hts h
  obtain ⟨found, ts₁, priority, ts₂, terms, hfound, hpriority, hterms, rfl⟩ := weight_steps h
  obtain ⟨hproper, hrest₁⟩ := term_gives n hts hfound
  obtain ⟨hpriority, hrest₂⟩ := priority_gives.optional hrest₁ hpriority
  obtain ⟨hterms, hrest⟩ := (term_gives n).further hrest₂ hterms
  exact ⟨⟨hproper, hpriority, hterms⟩, hrest⟩

theorem optimizeElement_gives : Gives (optimizeElement n) OptimizeElement.Proper := by
  intro ts a rest hts h
  obtain ⟨w, left, found, stop, hweight, hcondition, rfl⟩ := optimizeElement_steps h
  obtain ⟨hproper, hrest₁⟩ := weight_gives hts hweight
  obtain ⟨hcondition, hrest⟩ := condition?_gives hrest₁ hcondition
  exact ⟨⟨hproper, hcondition⟩, hrest⟩

theorem optimizeStatement_gives : Gives (optimizeStatement n) Statement.Proper := by
  intro ts a rest hts h
  obtain ⟨word, ts₁, opened, ts₂, elements, ts₃, closed, ts₄, stop, hword, hopening, helements,
    hclosing, hdot, rfl⟩ := optimizeStatement_steps h
  obtain ⟨-, hrest₁⟩ := keywordWith_gives (fun k => k = .minimize ∨ k = .maximize) hts hword
  obtain ⟨-, hrest₂⟩ := punct_gives .openBrace hrest₁ hopening
  obtain ⟨helements, hrest₃⟩ := optimizeElement_gives.semicolons hrest₂ helements
  obtain ⟨-, hrest₄⟩ := punct_gives .closeBrace hrest₃ hclosing
  exact ⟨helements, (endDot_gives hrest₄ hdot).2⟩

theorem weakStatement_gives : Gives (weakStatement n) Statement.Proper := by
  intro ts a rest hts h
  obtain ⟨arrow, ts₁, body, ts₂, dot, ts₃, opened, ts₄, w, ts₅, stop, harrow, hbody, hdot,
    hopening, hweight, hclosing, rfl⟩ := weakStatement_steps h
  obtain ⟨hbody, hrest₂⟩ := body_gives (punct_gives .weakIf hts harrow).2 hbody
  obtain ⟨-, hrest₃⟩ := endDot_gives hrest₂ hdot
  obtain ⟨hproper, hrest₅⟩ := weight_gives (punct_gives .openBracket hrest₃ hopening).2 hweight
  exact ⟨⟨hbody, hproper⟩, (punct_gives .closeBracket hrest₅ hclosing).2⟩

theorem arrowBody_gives : Gives (arrowBody n) fun found => ∀ e ∈ found, e.Proper := by
  intro ts a rest hts h
  obtain ⟨arrow, left, written, harrow, hbody, rfl⟩ := arrowBody_steps h
  exact optional_body_gives body_gives (punct_gives .ifThen hts harrow).2 hbody

theorem headedRule_gives : Gives (headedRule n) Statement.Proper := by
  intro ts a rest hts h
  obtain ⟨head, ts₁, written, ts₂, stop, hhead, hbody, hdot, rfl⟩ := headedRule_steps h
  obtain ⟨hhead, hrest₁⟩ := head_gives hts hhead
  obtain ⟨hbody, hrest₂⟩ := optional_body_gives arrowBody_gives hrest₁ hbody
  exact ⟨⟨by simpa using hhead, hbody⟩, (endDot_gives hrest₂ hdot).2⟩

theorem constraintRule_gives : Gives (constraintRule n) Statement.Proper := by
  intro ts a rest hts h
  obtain ⟨body, left, stop, hbody, hdot, rfl⟩ := constraintRule_steps h
  obtain ⟨hbody, hrest₁⟩ := arrowBody_gives hts hbody
  exact ⟨⟨by simp, hbody⟩, (endDot_gives hrest₁ hdot).2⟩

theorem statement_gives : Gives (statement n) Statement.Proper :=
  includeStatement_gives.or <| constantStatement_gives.or <|
    (signatureStatement_gives .defined .defined fun _ _ _ => trivial).or <|
    showAllStatement_gives.or <|
    (signatureStatement_gives .shows .showSignature fun _ _ _ => trivial).or <|
    showTermStatement_gives.or <|
    programStatement_gives.or <| externalStatement_gives.or <| optimizeStatement_gives.or <|
    weakStatement_gives.or <| headedRule_gives.or constraintRule_gives

theorem statementsFrom_gives {k : Nat} {found : List Statement} (hts : Sound ts)
    (h : statementsFrom n k ts [] = some found) : ∀ s ∈ found, s.Proper := by
  induction k generalizing ts found with
  | zero => cases h
  | succ k ih =>
    rcases statementsFrom_steps h with
      ⟨begin, stop, more, rfl, rfl⟩ | ⟨s, left, more, hstatement, hmore, rfl⟩
    · simp
    · obtain ⟨hs, hleft⟩ := statement_gives hts hstatement
      exact List.forall_mem_cons.mpr ⟨hs, ih hleft hmore⟩

/-- The statements of a program are proper. -/
theorem proper_of_parse? {text : String} {found : List Statement} (h : parse? text = some found) :
    ∀ s ∈ found, s.Proper :=
  statementsFrom_gives (sound_lex Position.start text.toList) h

end Statements

end AspAtlas.Surface
