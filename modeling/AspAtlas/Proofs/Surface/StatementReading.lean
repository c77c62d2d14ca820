import AspAtlas.Proofs.Surface.LiteralReading
/-!
Statements lie where they are read, and the statements of a program one behind the other.
-/
namespace AspAtlas.Surface

variable {n : Nat} {ts rest : List Token}

theorem includeStatement_reads : Reads Statement.In includeStatement := by
  intro ts a rest h hts
  obtain ⟨_, target, begin, stop, left, last, hword, hdot, rfl⟩ := includeStatement_steps h
  obtain ⟨hrest₁, h₁⟩ := keyword_advances .includes hword hts
  obtain ⟨hrest₂, h₂⟩ := hrest₁.advance (by simp)
  obtain ⟨hrest₃, h₃, hhi⟩ := endDot_ends hdot hrest₂
  exact ⟨hrest₃, ⟨le_refl _, (h₁.trans h₂).trans h₃, hhi⟩, trivial⟩

theorem bracketedName_ends : Ends bracketedName := by
  intro ts a rest h hts
  obtain ⟨opened, ts₁, name, ts₂, hopening, hname, hclosing⟩ := bracketedName_steps h
  obtain ⟨hrest₁, h₁⟩ := (punct_ends .openBracket).advances hopening hts
  obtain ⟨hrest₂, h₂⟩ := identifier_advances hname hrest₁
  obtain ⟨hrest₃, h₃, hhi⟩ := punct_ends .closeBracket hclosing hrest₂
  exact ⟨hrest₃, (h₁.trans h₂).trans h₃, hhi⟩

theorem bracketedTerm_reads :
    Reads (fun lo hi (x : Term × Position) => x.1.In lo x.2 ∧ lo < x.2 ∧ x.2 ≤ hi)
      (bracketedTerm n) := by
  intro ts ⟨found, stop⟩ rest h hts
  obtain ⟨opened, ts₁, ts₂, hopening, hfound, hclosing⟩ := bracketedTerm_steps h
  obtain ⟨hrest₁, h₁⟩ := (punct_ends .openBracket).advances hopening hts
  obtain ⟨hrest₂, hin⟩ := term_reads n hfound hrest₁
  obtain ⟨hrest₃, h₃, hhi⟩ := punct_ends .closeBracket hclosing hrest₂
  have h₂ := Term.spanned.lt hin
  exact ⟨hrest₃, Term.spanned.mono hin h₁.le h₃.le, (h₁.trans h₂).trans h₃, hhi⟩

theorem constantStatement_reads : Reads Statement.In (constantStatement n) := by
  intro ts a rest h hts
  obtain ⟨_, ts₁, name, ts₂, equal, ts₃, value, ts₄, dot, ts₅, hword, hname, hequal, hvalue,
    hdot, hmode⟩ :=
    constantStatement_steps h
  obtain ⟨hrest₁, h₁⟩ := keyword_advances .const hword hts
  obtain ⟨hrest₂, h₂⟩ := identifier_advances hname hrest₁
  obtain ⟨hrest₃, h₃⟩ := (punct_ends .equal).advances hequal hrest₂
  obtain ⟨hrest₄, hin⟩ := term_reads n hvalue hrest₃
  obtain ⟨hrest₅, h₅⟩ := endDot_ends.advances hdot hrest₄
  have hstart := (h₁.trans h₂).trans h₃
  have h₄ := Term.spanned.lt hin
  rcases hmode with ⟨stop, hmode, rfl⟩ | ⟨-, rfl, rfl⟩
  · obtain ⟨hrest, h₆, hhi⟩ := bracketedName_ends hmode hrest₅
    have hend := h₅.trans h₆
    exact ⟨hrest, ⟨le_refl _, (hstart.trans h₄).trans hend, hhi⟩,
      Term.spanned.mono hin hstart.le hend.le⟩
  · exact ⟨hrest₅, ⟨le_refl _, (hstart.trans h₄).trans h₅, le_refl _⟩,
      Term.spanned.mono hin hstart.le h₅.le⟩

theorem signature_ends :
    Reads (fun lo hi (x : String × String × Position) => lo < x.2.2 ∧ x.2.2 ≤ hi) signature := by
  intro ts ⟨name, digits, stop⟩ rest h hts
  obtain ⟨ts₁, slash, ts₂, ts₃, hname, hslash, hdigits, hdot⟩ := signature_steps h
  obtain ⟨hrest₁, h₁⟩ := identifier_advances hname hts
  obtain ⟨hrest₂, h₂⟩ := (punct_ends .slash).advances hslash hrest₁
  obtain ⟨hrest₃, h₃⟩ := number_advances hdigits hrest₂
  obtain ⟨hrest₄, h₄, hhi⟩ := endDot_ends hdot hrest₃
  exact ⟨hrest₄, ((h₁.trans h₂).trans h₃).trans h₄, hhi⟩

theorem signatureStatement_reads (word : Keyword) (make : Span → String → String → Statement)
    (hmake : ∀ lo hi span name digits, Within lo hi span →
      Statement.In lo hi (make span name digits)) :
    Reads Statement.In (signatureStatement word make) := by
  intro ts a rest h hts
  obtain ⟨_, left, name, digits, stop, hword, hsignature, rfl⟩ := signatureStatement_steps h
  obtain ⟨hrest₁, h₁⟩ := keyword_advances word hword hts
  obtain ⟨hrest₂, h₂, hhi⟩ := signature_ends hsignature hrest₁
  exact ⟨hrest₂, hmake _ _ _ _ _ ⟨le_refl _, h₁.trans h₂, hhi⟩⟩

theorem showAllStatement_reads : Reads Statement.In showAllStatement := by
  intro ts a rest h hts
  obtain ⟨_, left, stop, hword, hdot, rfl⟩ := showAllStatement_steps h
  obtain ⟨hrest₁, h₁⟩ := keyword_advances .shows hword hts
  obtain ⟨hrest₂, h₂, hhi⟩ := endDot_ends hdot hrest₁
  exact ⟨hrest₂, ⟨le_refl _, h₁.trans h₂, hhi⟩, trivial⟩

/-- A body that may be missing lies where it was looked for. -/
theorem optional_body {reader : Reader (List BodyElement)} {found : Option (List BodyElement)}
    (h : Reads (fun lo hi body => Row BodyElement.In lo hi body ∧ lo < hi) reader)
    (hread : optional reader ts = (found, rest)) (hts : Ascending ts) :
    Ascending rest ∧ Row BodyElement.In (beginOf ts) (beginOf rest) (found.getD []) := by
  rcases optional_steps hread with ⟨body, hbody, rfl⟩ | ⟨-, rfl, rfl⟩
  · obtain ⟨hrest, hrow, -⟩ := h hbody hts
    exact ⟨hrest, hrow⟩
  · exact ⟨hts, .nil (le_refl _)⟩

theorem separatedBody_reads :
    Reads (fun lo hi body => Row BodyElement.In lo hi body ∧ lo < hi) (separatedBody n) := by
  intro ts a rest h hts
  obtain ⟨_, left, hcolon, hbody⟩ := separatedBody_steps h
  obtain ⟨hrest₁, h₁⟩ := separator_advances hcolon hts
  obtain ⟨hrest, hrow, h₂⟩ := body_reads hbody hrest₁
  exact ⟨hrest, hrow.mono BodyElement.spanned h₁.le (le_refl _), h₁.trans h₂⟩

theorem showTermStatement_reads : Reads Statement.In (showTermStatement n) := by
  intro ts a rest h hts
  obtain ⟨_, ts₁, found, ts₂, body, ts₃, stop, hword, hfound, hbody, hdot, rfl⟩ :=
    showTermStatement_steps h
  obtain ⟨hrest₁, h₁⟩ := keyword_advances .shows hword hts
  obtain ⟨hrest₂, hin⟩ := term_reads n hfound hrest₁
  obtain ⟨hrest₃, hrow⟩ := optional_body separatedBody_reads hbody hrest₂
  obtain ⟨hrest₄, h₄, hhi⟩ := endDot_ends hdot hrest₃
  have h₂ := Term.spanned.lt hin
  have h₃ := hrow.le BodyElement.spanned
  refine ⟨hrest₄, ⟨le_refl _, (h₁.trans h₂).trans (h₃.trans_lt h₄), hhi⟩, _,
    Term.spanned.mono hin h₁.le (le_refl _), ?_⟩
  exact hrow.mono BodyElement.spanned (le_refl _) h₄.le

/-- Names behind commas, each with its comma, only lead on. -/
theorem names_le {more : List String}
    (hread : many (after (· = .comma) identifier) n ts = (more, rest))
    (hts : Ascending ts) : Ascending rest ∧ beginOf ts ≤ beginOf rest := by
  have hname : Advances (after (· = .comma) identifier) := by
    intro ts a rest h hts
    obtain ⟨symbol, left, hcomma, hidentifier⟩ := after_steps h
    obtain ⟨hrest₁, h₁⟩ := punctWith_advances (· = .comma) hcomma hts
    obtain ⟨hrest₂, h₂⟩ := identifier_advances hidentifier hrest₁
    exact ⟨hrest₂, h₁.trans h₂⟩
  obtain ⟨hrest, hrow⟩ := many_row hname hread hts
  refine ⟨hrest, ?_⟩
  clear hread
  generalize beginOf ts = lo, beginOf rest = hi at hrow
  induction hrow with
  | nil h => exact h
  | cons hlt _ ih => exact hlt.le.trans ih

theorem parameterNames_advances : Advances (parameterNames n) := by
  intro ts a rest h hts
  obtain ⟨opened, left, closed, hopening, hnames⟩ := parameterNames_steps h
  obtain ⟨hleft, h₁⟩ := (punct_ends .opening).advances hopening hts
  rcases hnames with ⟨name, ts₁, more, ts₂, hname, hmore, hclosing⟩ | ⟨-, hclosing⟩
  · obtain ⟨hrest₁, h₂⟩ := identifier_advances hname hleft
    obtain ⟨hrest₂, hle⟩ := names_le hmore hrest₁
    obtain ⟨hrest, h₃⟩ := (punct_ends .closing).advances hclosing hrest₂
    exact ⟨hrest, (h₁.trans h₂).trans (hle.trans_lt h₃)⟩
  · obtain ⟨hrest, h₃⟩ := (punct_ends .closing).advances hclosing hleft
    exact ⟨hrest, h₁.trans h₃⟩

theorem programStatement_reads : Reads Statement.In (programStatement n) := by
  intro ts a rest h hts
  obtain ⟨_, ts₁, name, ts₂, names, ts₃, stop, hword, hname, hnames, hdot, rfl⟩ :=
    programStatement_steps h
  obtain ⟨hrest₁, h₁⟩ := keyword_advances .program hword hts
  obtain ⟨hrest₂, h₂⟩ := identifier_advances hname hrest₁
  obtain ⟨hrest₃, h₃⟩ := optional_le parameterNames_advances hnames hrest₂
  obtain ⟨hrest₄, h₄, hhi⟩ := endDot_ends hdot hrest₃
  exact ⟨hrest₄, ⟨le_refl _, (h₁.trans h₂).trans (h₃.trans_lt h₄), hhi⟩, trivial⟩

theorem externalStatement_reads : Reads Statement.In (externalStatement n) := by
  intro ts a rest h hts
  obtain ⟨_, ts₁, a, ts₂, found, last, ts₃, dot, ts₄, hword, hatom, hcondition, hdot, htype⟩ :=
    externalStatement_steps h
  obtain ⟨hrest₁, h₁⟩ := keyword_advances .external hword hts
  obtain ⟨hrest₂, hin⟩ := atom_reads hatom hrest₁
  obtain ⟨hrest₃, hrow, hle, hhi⟩ := condition?_row hcondition hrest₂
  obtain ⟨hrest₄, h₄⟩ := endDot_ends.advances hdot hrest₃
  have h₂ := Atom.spanned.lt hin
  have hstart := (h₁.trans h₂).trans_le (hle.trans hhi)
  have hinside := Atom.spanned.mono hin h₁.le (le_refl _)
  have hcond := hrow.mono Literal.spanned (le_refl _) (hhi.trans h₄.le)
  rcases htype with ⟨type, stop, htype, rfl⟩ | ⟨-, rfl, rfl⟩
  · obtain ⟨hrest, htypeIn, h₅, hend⟩ := bracketedTerm_reads htype hrest₄
    refine ⟨hrest, ⟨le_refl _, hstart.trans (h₄.trans h₅), hend⟩, _, _, hinside, hcond, ?_⟩
    exact .singleton htypeIn
  · exact ⟨hrest₄, ⟨le_refl _, hstart.trans h₄, le_refl _⟩, _, _, hinside, hcond, .nil (le_refl _)⟩

theorem priority_reads : Reads Term.In (priority n) := by
  intro ts a rest h hts
  obtain ⟨sign, left, hsign, hterm⟩ := priority_steps h
  obtain ⟨hrest₁, h₁⟩ := (punct_ends .atSign).advances hsign hts
  obtain ⟨hrest, hin⟩ := term_reads n hterm hrest₁
  exact ⟨hrest, Term.spanned.mono hin h₁.le (le_refl _)⟩

theorem weight_reads : Reads Weight.In (weight n) := by
  intro ts a rest h hts
  obtain ⟨found, ts₁, priority, ts₂, terms, hfound, hpriority, hterms, rfl⟩ := weight_steps h
  obtain ⟨hrest₁, hin⟩ := term_reads n hfound hts
  obtain ⟨hrest₂, hpriority⟩ := optional_row priority_reads hpriority hrest₁
  obtain ⟨hrest₃, hrow⟩ := further_row Term.spanned (term_reads n) hterms hrest₂
  obtain ⟨htight, hle, hhi⟩ := endOf_row Term.spanned hrow
  have h₁ := Term.spanned.lt hin
  have h₂ := hpriority.le Term.spanned
  exact ⟨hrest₃, ⟨le_refl _, h₁.trans_le (h₂.trans hle), hhi⟩, _, _, hin, hpriority, htight⟩

theorem optimizeElement_reads : Reads OptimizeElement.In (optimizeElement n) := by
  intro ts a rest h hts
  obtain ⟨w, left, found, stop, hweight, hcondition, rfl⟩ := optimizeElement_steps h
  obtain ⟨hrest₁, hin⟩ := weight_reads hweight hts
  obtain ⟨hrest, hrow, hle, hhi⟩ := condition?_row hcondition hrest₁
  have hlt := Weight.spanned.lt hin
  exact ⟨hrest, ⟨le_refl _, hlt.trans_le hle, hhi⟩, _, hin, hrow⟩

theorem optimizeStatement_reads : Reads Statement.In (optimizeStatement n) := by
  intro ts a rest h hts
  obtain ⟨word, ts₁, opened, ts₂, elements, ts₃, closed, ts₄, stop, hword, hopening, helements,
    hclosing, hdot, rfl⟩ := optimizeStatement_steps h
  obtain ⟨hrest₁, h₁⟩ := keywordWith_advances (fun k => k = .minimize ∨ k = .maximize) hword hts
  obtain ⟨hrest₂, h₂⟩ := (punct_ends .openBrace).advances hopening hrest₁
  obtain ⟨hrest₃, hrow⟩ :=
    semicolons_row OptimizeElement.spanned optimizeElement_reads helements hrest₂
  obtain ⟨hrest₄, h₄⟩ := (punct_ends .closeBrace).advances hclosing hrest₃
  obtain ⟨hrest₅, h₅, hhi⟩ := endDot_ends hdot hrest₄
  have h₃ := hrow.le OptimizeElement.spanned
  have hstart := h₁.trans h₂
  have hend := h₄.trans h₅
  refine ⟨hrest₅, ⟨le_refl _, (hstart.trans_le h₃).trans hend, hhi⟩, ?_⟩
  exact hrow.mono OptimizeElement.spanned hstart.le hend.le

theorem weakStatement_reads : Reads Statement.In (weakStatement n) := by
  intro ts a rest h hts
  obtain ⟨arrow, ts₁, body, ts₂, dot, ts₃, opened, ts₄, w, ts₅, stop, harrow, hbody, hdot,
    hopening, hweight, hclosing, rfl⟩ := weakStatement_steps h
  obtain ⟨hrest₁, h₁⟩ := (punct_ends .weakIf).advances harrow hts
  obtain ⟨hrest₂, hrow, h₂⟩ := body_reads hbody hrest₁
  obtain ⟨hrest₃, h₃⟩ := endDot_ends.advances hdot hrest₂
  obtain ⟨hrest₄, h₄⟩ := (punct_ends .openBracket).advances hopening hrest₃
  obtain ⟨hrest₅, hin⟩ := weight_reads hweight hrest₄
  obtain ⟨hrest₆, h₆, hhi⟩ := punct_ends .closeBracket hclosing hrest₅
  have h₅ := Weight.spanned.lt hin
  have hmiddle := h₃.trans h₄
  refine ⟨hrest₆, ⟨le_refl _, ((h₁.trans h₂).trans hmiddle).trans (h₅.trans h₆), hhi⟩, _,
    hrow.mono BodyElement.spanned h₁.le (le_refl _), ?_⟩
  exact Weight.spanned.mono hin hmiddle.le h₆.le

theorem arrowBody_reads :
    Reads (fun lo hi body => Row BodyElement.In lo hi body ∧ lo < hi) (arrowBody n) := by
  intro ts a rest h hts
  obtain ⟨arrow, left, written, harrow, hbody, rfl⟩ := arrowBody_steps h
  obtain ⟨hrest₁, h₁⟩ := (punct_ends .ifThen).advances harrow hts
  obtain ⟨hrest₂, hrow⟩ := optional_body body_reads hbody hrest₁
  have h₂ := hrow.le BodyElement.spanned
  exact ⟨hrest₂, hrow.mono BodyElement.spanned h₁.le (le_refl _), h₁.trans_le h₂⟩

theorem headedRule_reads : Reads Statement.In (headedRule n) := by
  intro ts a rest h hts
  obtain ⟨head, ts₁, written, ts₂, stop, hhead, hbody, hdot, rfl⟩ := headedRule_steps h
  obtain ⟨hrest₁, hin⟩ := head_reads hhead hts
  obtain ⟨hrest₂, hrow⟩ := optional_body arrowBody_reads hbody hrest₁
  obtain ⟨hrest₃, h₃, hhi⟩ := endDot_ends hdot hrest₂
  have h₁ := Head.spanned.lt hin
  have h₂ := hrow.le BodyElement.spanned
  refine ⟨hrest₃, ⟨le_refl _, h₁.trans (h₂.trans_lt h₃), hhi⟩, _, .singleton hin, ?_⟩
  exact hrow.mono BodyElement.spanned (le_refl _) h₃.le

theorem constraintRule_reads : Reads Statement.In (constraintRule n) := by
  intro ts a rest h hts
  obtain ⟨body, left, stop, hbody, hdot, rfl⟩ := constraintRule_steps h
  obtain ⟨hrest₁, hrow, h₁⟩ := arrowBody_reads hbody hts
  obtain ⟨hrest₂, h₂, hhi⟩ := endDot_ends hdot hrest₁
  refine ⟨hrest₂, ⟨le_refl _, h₁.trans h₂, hhi⟩, _, .nil (le_refl _), ?_⟩
  exact hrow.mono BodyElement.spanned (le_refl _) h₂.le

theorem statement_reads : Reads Statement.In (statement n) :=
  includeStatement_reads.or <| constantStatement_reads.or <|
    (signatureStatement_reads .defined .defined fun _ _ _ _ _ h => ⟨h, trivial⟩).or <|
    showAllStatement_reads.or <|
    (signatureStatement_reads .shows .showSignature fun _ _ _ _ _ h => ⟨h, trivial⟩).or <|
    showTermStatement_reads.or <|
    programStatement_reads.or <| externalStatement_reads.or <| optimizeStatement_reads.or <|
    weakStatement_reads.or <| headedRule_reads.or constraintRule_reads

/-- The statements of a program lie one behind the other. -/
theorem statementsFrom_row {k : Nat} {ts : List Token} {found : List Statement}
    (h : statementsFrom n k ts [] = some found) (hts : Ascending ts) :
    ∃ hi, Row Statement.In (beginOf ts) hi found := by
  induction k generalizing ts found with
  | zero => cases h
  | succ k ih =>
    rcases statementsFrom_steps h with
      ⟨begin, stop, more, rfl, rfl⟩ | ⟨s, left, more, hstatement, hmore, rfl⟩
    · exact ⟨_, .nil (le_refl _)⟩
    · obtain ⟨hleft, hin⟩ := statement_reads hstatement hts
      obtain ⟨hi, hrow⟩ := ih hmore hleft
      exact ⟨hi, .cons hin hrow⟩

theorem parse?_row {text : String} {found : List Statement} (h : parse? text = some found) :
    ∃ lo hi, Row Statement.In lo hi found := by
  obtain ⟨hi, hrow⟩ := statementsFrom_row h (tokens_ascending text.toList)
  exact ⟨_, hi, hrow⟩

end AspAtlas.Surface
