import AspAtlas.Proofs.Grammar.Dots
import AspAtlas.Proofs.Surface.Arities
/-!
Statements: what the readers find is what the grammar matches, and the pairs of the
matches lower to the same items.
-/
namespace AspAtlas.Grammar

/-- The arity that the match of a signature statement declares, as written. -/
def Pair.arity? (pair : Pair) : Option String :=
  match pair.rule with
  | .defined | .showSignature => pair.inner[1]?.map Pair.text
  | _ => none

end AspAtlas.Grammar

namespace AspAtlas.Surface

open Grammar

variable {α β : Type} {file : Path} {m n k : Nat} {b e : Expr Rule} {p q : Place} {ps : List Pair}
  {R : View β}

/-- The view of a statement. -/
def StatementView (file : Path) : View Statement := fun s _ ps =>
  ∃ pair : Pair, ps = [pair] ∧ pair.rule ≠ .finish ∧ pair.arity? = s.arity? ∧
    pair.items file = (s.lower file).mapError .arity

/-- A keyword that no other one goes on with. -/
theorem word_tracks (word : Keyword) (h : word ∉ [Keyword.min, .max, .sum, .sup, .inf])
    (p : Place) :
    Tracks p.tokens.length (.text word.text) p (fun _ _ ps => ps = []) (keyword word p.tokens) := by
  refine keyword_tracks word ⟨?_, ?_, ?_⟩ p
  · revert h
    cases word <;> decide
  · exact List.pairwise_singleton _ _
  · revert h
    cases word <;> decide

/-- A quoted text. -/
def quotedText : Reader String
  | ⟨.quoted text, _, _⟩ :: ts => some (text, ts)
  | _ => none

theorem quotedText_tracks (p : Place) : Tracks p.tokens.length (.rule .string) p
    (fun text _ ps => ∃ pair : Pair, ps = [pair] ∧ pair.text = text) (quotedText p.tokens) := by
  have hpicks : strings.Picks (fun text _ _ => text) quotedText := by
    refine ⟨fun _ _ _ _ => rfl, ?_⟩
    rintro ⟨lexeme, b, e⟩ ts h
    cases lexeme <;> simp_all [strings, quotedText]
  refine (hpicks.tracks strings_cuts p).imp ?_
  rintro _ q ps ⟨text, rfl, rfl⟩
  exact ⟨_, rfl, rfl⟩

theorem includeStatement_eq (ts : List Token) : includeStatement ts =
    (keyword .includes ts).bind fun x => (quotedText x.2).bind fun y => (endDot y.2).bind fun z =>
      some (.includes ⟨beginOf ts, z.1⟩ y.1, z.2) := by
  unfold includeStatement
  cases keyword .includes ts with
  | none => rfl
  | some x =>
    obtain ⟨-, rest⟩ := x
    cases rest with
    | nil => rfl
    | cons t rest =>
      obtain ⟨lexeme, b, e⟩ := t
      cases lexeme <;> rfl

theorem includeStatement_tracks (p : Place) :
    TracksToDot p.tokens.length (.rule .includes) p (StatementView file)
      (includeStatement p.tokens) := by
  refine Mirrors.rule (R := fun s q ps => ∃ target pair,
    s = Statement.includes ⟨beginOf p.tokens, q.position⟩ target ∧ ps = [pair] ∧
      Pair.text pair = target) rfl ?_ ?_
  · rw [includeStatement_eq]
    refine (word_tracks .includes (by decide) p).bind ?_
    rintro _ q _ rfl hlt
    refine (quotedText_tracks q).bind ?_
    rintro target r _ ⟨pair, rfl, htext⟩ hlt'
    refine ((endDot_tracks r).mono (show _ ≤ p.tokens.length by omega)).last ?_
    rintro stop s us ts ⟨rfl, rfl⟩
    exact ⟨_, rfl, target, pair, rfl, rfl, htext⟩
  · rintro s q ps ⟨target, pair, rfl, rfl, rfl⟩
    exact ⟨_, rfl, by simp, rfl, rfl⟩

/-- No term starts with an equals sign. -/
theorem no_term_at_equal {cs : List Char} (hrest : q.rest = '=' :: cs) :
    Derives false (.rule .term) q.skip none := by
  have hpart : UpwardClosed Punct.text Punct.all [.sameAs, .equal] :=
    closed_symbols (by decide) (by decide) (by decide)
  have hskip : q.skip.rest = (symbols.text .equal).toList ++ cs := by
    rw [Place.skip_of_no_gap (by rw [hrest]; rfl), hrest]
    rfl
  obtain ⟨s, hs, r, hat⟩ := Vocabulary.exists_at hpart (by simp) hskip
  have hterm := term_agrees ⟨""⟩ (Nat.le_refl (2 * (q.tokens.length + 1))) q (Nat.lt_succ_self _)
  have hnone : term (2 * (q.tokens.length + 1)) q.tokens = none := by
    rw [hat.tokens]
    refine term_eq_none ?_
    obtain rfl | rfl : s = .sameAs ∨ s = .equal := by simpa using hs
    all_goals rfl
  rw [hnone] at hterm
  cases hterm with
  | refused h => exact h

/-- An equals sign matches in front of a term where it stands. Two of them start with one too, but
no term starts with the second. -/
theorem equal_tracks {f : Position × List Token → Option (β × List Token)} (p : Place)
    (hnext : ∀ stop q, q.tokens.length < p.tokens.length →
      TracksToDot k (.seq (.rule .term) b) q R (f (stop, q.tokens))) :
    TracksToDot k (.seq (.text "=") (.seq (.rule .term) b)) p R
      ((punct .equal p.tokens).bind f) := by
  have hpart : UpwardClosed Punct.text Punct.all [.sameAs, .equal] :=
    closed_symbols (by decide) (by decide) (by decide)
  rcases Vocabulary.longest?_cases (v := symbols) hpart p with
    ⟨hnone, t, ts, htokens, hother⟩ | ⟨a, ha, q, hsome, hat⟩
  · rw [htokens, punct_eq_none (hother .equal (by simp))]
    exact .refused (.noFirst
      (.noText (Vocabulary.afterLead?_eq_none (v := symbols) (a := .equal) hnone (by simp))))
  · have hsplit := hat.split
    obtain rfl | rfl : a = .sameAs ∨ a = .equal := by simpa using ha
    · have htext : Derives false (.text "=") p.skip
          (some (p.skip.move "=".toList ('=' :: q.rest), [])) :=
        derives_text _ (by rw [hsplit]; rfl)
      have hnone : punct .equal p.tokens = none := by
        rw [hat.tokens]
        rfl
      rw [hnone]
      exact .refused (.noSecond htext (.noFirst (no_term_at_equal rfl)))
    · have htext : Derives false (.text "=") p.skip (some (q, [])) := by
        rw [hat.move]
        exact derives_text _ (by rw [hsplit]; rfl)
      have hsome : punct .equal p.tokens = some (q.position, q.tokens) := by
        rw [hat.tokens]
        rfl
      rw [hsome]
      exact .seq htext (hnext _ q hat.length_lt)

/-- The dot of a statement that may go on with something in brackets. -/
theorem bracket_tracks {f : Reader α} {Q : View α}
    {g : Position × List Token → Option (β × List Token)}
    (there : α → β) (missing : Position → β) (p : Place) (hk : p.tokens.length ≤ k)
    (htracks : ∀ q, q.tokens.length < p.tokens.length →
      Tracks q.tokens.length (.seq (.text "[") b) q Q (f q.tokens))
    (hdot : ∀ place stop ts, f (⟨.punct .dot, place, stop⟩ :: ts) = none)
    (hg : ∀ stop ts a left, f ts = some (a, left) → g (stop, ts) = some (there a, left))
    (hg' : ∀ stop ts, f ts = none → g (stop, ts) = some (missing (beginOf ts), ts))
    (hthere : ∀ a q ps, Q a q ps → R (there a) q ps)
    (hmissing : ∀ q : Place, R (missing q.position) q []) :
    TracksToDot k (.seq (.text ".") (.opt (.seq (.text "[") b))) p R
      ((endDot p.tokens).bind g) := by
  refine endDot_bind p ?_ ?_
  · intro q hlt
    have hread := htracks q hlt
    generalize hx : f q.tokens = x at hread
    cases hread with
    | refused hnone =>
      rw [hg' _ _ hx]
      refine (Mirrors.missing hnone ?_ (show _ < k by omega)).toDot
      rw [q.beginOf_tokens]
      exact hmissing q.skip
    | taken hder hview hbehind' =>
      obtain ⟨hlt'⟩ := hbehind'
      rw [hg _ _ _ _ hx]
      exact (Mirrors.there hder (hthere _ _ _ hview) (by omega)).toDot
  · intro q cs stop ts hrest hskip
    rw [hg' _ _ (hdot _ _ _)]
    have hlead : "[".toList = ['['] := rfl
    have hnone : Derives false (.opt (.seq (.text "[") b)) q.skip (some (q, [])) := by
      rw [hskip]
      exact .missing (.noFirst (.noText (by simp [hlead, hrest, Text.afterLead?])))
    exact .taken hnone (hmissing q) (.dot hrest)

theorem bracketedName_tracks (p : Place) : Tracks p.tokens.length
    (.seq (.text "[") (.seq (.rule .identifier) (.text "]"))) p (fun stop q _ => stop = q.position)
    (bracketedName p.tokens) := by
  refine (symbol_tracks .openBracket rfl p).bind ?_
  rintro _ q _ ⟨-, rfl⟩ hlt
  refine (identifier_tracks q).bind ?_
  rintro _ r _ rfl hlt'
  exact ((symbol_tracks .closeBracket rfl r).mono (by omega)).imp fun _ _ _ h => h.1

theorem constantStatement_tracks (hn : 2 * m ≤ n) (hp : p.tokens.length < m) :
    TracksToDot p.tokens.length (.rule .constDef) p (StatementView file)
      (constantStatement n p.tokens) := by
  refine Mirrors.rule (R := fun s q ps => ∃ name value a c us,
    s = Statement.constant ⟨beginOf p.tokens, q.position⟩ name value ∧ ps = a :: c :: us ∧
      Pair.text a = name ∧ Pair.term file c = .ok (value.lower file)) rfl ?_ ?_
  · refine (word_tracks .const (by decide) p).bind ?_
    rintro _ q _ rfl hlt₁
    refine (identifier_tracks q).bind ?_
    rintro name r _ rfl hlt₂
    refine equal_tracks r ?_
    intro _ s hlt₃
    refine (term_agrees file hn s (by omega)).bind ?_
    rintro value t us ⟨-, c, rfl, -, -, hterm⟩ hlt₄
    refine bracket_tracks (fun stop => Statement.constant ⟨beginOf p.tokens, stop⟩ name value)
      (fun stop => Statement.constant ⟨beginOf p.tokens, stop⟩ name value) t
      (show _ ≤ p.tokens.length by omega)
      (fun q _ => bracketedName_tracks q) (fun _ _ _ => rfl) (fun _ _ _ _ h => by simp only [h])
      (fun _ _ h => by simp only [h]) ?_ ?_
    · rintro stop q us rfl
      exact ⟨name, value, _, c, us, rfl, rfl, rfl, hterm⟩
    · intro q
      exact ⟨name, value, _, c, [], rfl, rfl, rfl, hterm⟩
  · rintro s q ps ⟨name, value, a, c, us, rfl, rfl, rfl, hterm⟩
    refine ⟨_, rfl, by simp, rfl, ?_⟩
    simp only [Pair.items, Pair.statement, Pair.constDef, next, ok_bind, hterm]
    rfl

/-- A number. -/
theorem number_tracks (p : Place) : Tracks p.tokens.length (.rule .number) p
    (fun digits _ ps => ∃ pair : Pair, ps = [pair] ∧ pair.text = digits) (number p.tokens) := by
  have hpicks : numbers.Picks (fun digits _ _ => digits) number := by
    refine ⟨fun _ _ _ _ => rfl, ?_⟩
    rintro ⟨lexeme, b, e⟩ ts h
    cases lexeme <;> simp_all [numbers, number]
  refine (hpicks.tracks numbers_cuts p).imp ?_
  rintro _ q ps ⟨digits, rfl, rfl⟩
  exact ⟨_, rfl, rfl⟩

/-- The parts of a signature. -/
def SignatureParts : View (String × String × Position) := fun x q ps =>
  x.2.2 = q.position ∧ ∃ name digits : Pair, ps = [name, digits] ∧ name.text = x.1 ∧
    digits.text = x.2.1

theorem signature_tracks (p : Place) : TracksToDot p.tokens.length
    (.seq (.rule .identifier) (.seq (.text "/") (.seq (.rule .number) (.text ".")))) p
      SignatureParts
    (signature p.tokens) := by
  refine (identifier_tracks p).bind ?_
  rintro name q _ rfl hlt
  refine (symbol_tracks .slash rfl q).bind ?_
  rintro _ r _ ⟨-, rfl⟩ hlt'
  refine (number_tracks r).bind ?_
  rintro digits s _ ⟨pair, rfl, htext⟩ hlt''
  refine ((endDot_tracks s).mono (by omega)).last ?_
  rintro stop t us ts ⟨rfl, rfl⟩
  exact ⟨_, rfl, rfl, _, pair, rfl, rfl, htext⟩

theorem mapError_signature (span : Span) (kind : NodeKind) (name digits text : String) (a c : Pair)
    (r : Rule) (ha : a.text = name) (hc : c.text = digits) :
    (do .ok [Item.statement (← Pair.signature file kind ⟨r, span, text, [a, c]⟩)]) =
      (((lowerSignature file span kind name digits).map fun node => [Item.statement node]).mapError
        Fault.arity) := by
  subst ha hc
  simp only [Pair.signature, next, ok_bind]
  cases lowerSignature file span kind a.text c.text <;> rfl

/-- The match of a keyword and a signature lowers to the statement that its reader makes of them. -/
theorem signatureStatement_tracks (word : Keyword)
    (make : Span → String → String → Statement) (r : Rule)
    (hr : definition r = ⟨.parts
      [.text word.text, .rule .identifier, .text "/", .rule .number, .text "."], false⟩)
    (hword : word ∉ [Keyword.min, .max, .sum, .sup, .inf])
    (hmake : ∀ q span text (a c : Pair),
      StatementView file (make span a.text c.text) q [⟨r, span, text, [a, c]⟩]) (p : Place) :
    TracksToDot p.tokens.length (.rule r) p (StatementView file)
      (signatureStatement word make p.tokens) := by
  refine Mirrors.rule (R := fun s q ps => ∃ a c : Pair,
    s = make ⟨beginOf p.tokens, q.position⟩ a.text c.text ∧ ps = [a, c]) (by rw [hr]) ?_ ?_
  · rw [hr]
    refine (word_tracks word hword p).bind ?_
    rintro _ q _ rfl hlt
    refine ((signature_tracks q).mono (Nat.le_of_lt hlt)).last ?_
    rintro ⟨name, digits, stop⟩ r us ts ⟨rfl, a, c, rfl, rfl, rfl⟩
    exact ⟨_, rfl, a, c, rfl, rfl⟩
  · rintro s q ps ⟨a, c, rfl, rfl⟩
    exact hmake _ _ _ a c

theorem definedStatement_tracks (p : Place) :
    TracksToDot p.tokens.length (.rule .defined) p (StatementView file)
      (definedStatement p.tokens) :=
  signatureStatement_tracks .defined .defined .defined rfl (by decide)
    (fun _ _ _ a c => ⟨_, rfl, by simp, rfl,
      mapError_signature _ .defined _ _ _ _ _ .defined rfl rfl⟩) p

theorem showSignatureStatement_tracks (p : Place) :
    TracksToDot p.tokens.length (.rule .showSignature) p
      (StatementView file) (showSignatureStatement p.tokens) :=
  signatureStatement_tracks .shows .showSignature .showSignature rfl (by decide)
    (fun _ _ _ a c => ⟨_, rfl, by simp, rfl,
      mapError_signature _ .showSignature _ _ _ _ _ .showSignature rfl rfl⟩) p

theorem showAllStatement_tracks (p : Place) :
    TracksToDot p.tokens.length (.rule .showAll) p (StatementView file)
      (showAllStatement p.tokens) := by
  refine Mirrors.rule (R := fun s q ps => s = Statement.showAll ⟨beginOf p.tokens, q.position⟩ ∧
    ps = []) rfl ?_ ?_
  · refine (word_tracks .shows (by decide) p).bind ?_
    rintro _ q _ rfl hlt
    refine ((endDot_tracks q).mono (Nat.le_of_lt hlt)).last ?_
    rintro stop r us ts ⟨rfl, rfl⟩
    exact ⟨_, rfl, rfl, rfl⟩
  · rintro s q ps ⟨rfl, rfl⟩
    exact ⟨_, rfl, by simp, rfl, rfl⟩

theorem separatedBody_agrees (file : Path) (hn : 2 * m ≤ n) :
    Agrees m (.seq condSep (.rule .body)) (BodyView file) (separatedBody n) := by
  intro p hp
  refine (separator_tracks p).bind ?_
  rintro _ q _ rfl hlt
  exact (body_agrees file hn q (by omega)).mono (Nat.le_of_lt hlt)

/-- The pair of a body, if there is one. -/
inductive BodyPairs (file : Path) : Option (List BodyElement) → List Pair → Prop
  | none : BodyPairs file none []
  | some {es : List BodyElement} {pair : Pair} (hrule : pair.rule = .body)
      (h : pair.body file = .ok (lowerBody file es)) : BodyPairs file (some es) [pair]

theorem BodyPairs.of_view {es : Option (List BodyElement)}
    (h : OptionView (BodyView file) p es q ps) : BodyPairs file es ps := by
  cases h with
  | missing => exact .none
  | there h =>
    obtain ⟨pair, rfl, hrule, hpair⟩ := h
    exact .some hrule hpair

theorem showTermStatement_tracks (hn : 2 * m ≤ n) (hp : p.tokens.length < m) :
    TracksToDot p.tokens.length (.rule .showTerm) p (StatementView file)
      (showTermStatement n p.tokens) := by
  refine Mirrors.rule (R := fun s q ps => ∃ term es a us,
    s = Statement.showTerm ⟨beginOf p.tokens, q.position⟩ term (Option.getD es []) ∧ ps = a :: us ∧
      Pair.term file a = .ok (term.lower file) ∧ BodyPairs file es us) rfl ?_ ?_
  · refine (word_tracks .shows (by decide) p).bind ?_
    rintro _ q _ rfl hlt₁
    refine (term_agrees file hn q (by omega)).bind ?_
    rintro term r us ⟨-, a, rfl, -, -, hterm⟩ hlt₂
    obtain ⟨es, s, us, hes, hder, hview, hlt₃⟩ :=
      ((separatedBody_agrees file hn r (by omega)).mono (Nat.le_succ _)).optional
      (Nat.lt_succ_self _)
    simp only [hes]
    refine .seq hder (((endDot_tracks s).mono (by omega)).last ?_)
    rintro stop t ws ts ⟨rfl, rfl⟩
    exact ⟨_, rfl, term, es, a, us, rfl, by simp, hterm, .of_view hview⟩
  · rintro s q ps ⟨term, es, a, us, rfl, rfl, hterm, hbody⟩
    refine ⟨_, rfl, by simp, rfl, ?_⟩
    cases hbody with
    | none =>
      simp only [Pair.items, Pair.statement, Pair.showTerm, next, ok_bind, hterm]
      rfl
    | some hrule h =>
      simp only [Pair.items, Pair.statement, Pair.showTerm, next, ok_bind, hterm, h]
      rfl

theorem parameterNames_eq (ts : List Token) :
    parameterNames n ts = (punct .opening ts).bind fun x =>
    (punct .closing (listed .comma n identifier x.2).2).bind fun y => some ((), y.2) := by
  unfold parameterNames
  cases punct .opening ts with
  | none => rfl
  | some x =>
    obtain ⟨-, rest⟩ := x
    simp only [Option.bind_eq_bind, Option.bind_some, listed]
    cases identifier rest <;> rfl

/-- The names of the parameters leave pairs that nothing looks at. -/
theorem parameterNames_tracks (hp : p.tokens.length ≤ n) : Tracks p.tokens.length
    (Expr.parts [.text "(", .opt (Expr.separated (.text ",") (.rule .identifier)), .text ")"]) p
    (fun _ _ _ => True) (parameterNames n p.tokens) := by
  rw [parameterNames_eq]
  refine (symbol_tracks .opening rfl p).bind ?_
  rintro _ q _ ⟨-, rfl⟩ hlt
  have hnames : Agrees (n + 1) (.rule .identifier) (fun _ _ _ => True) identifier :=
    fun p _ => (identifier_tracks p).imp fun _ _ _ _ => trivial
  obtain ⟨names, r, us, hlisted, hder, -, hle⟩ := listed_exists (n := n) .comma rfl hnames
    (show q.tokens.length < n + 1 by omega) (Nat.le_refl _)
  simp only [hlisted]
  refine .seq hder (((symbol_tracks .closing rfl r).mono (by omega)).last ?_)
  intro stop s ws ts _
  exact ⟨_, rfl, trivial⟩

theorem programStatement_tracks (hn : 2 * m ≤ n) (hp : p.tokens.length < m) :
    TracksToDot p.tokens.length (.rule .programPart) p (StatementView file)
      (programStatement n p.tokens) := by
  refine Mirrors.rule (R := fun s q ps => ∃ name a us,
    s = Statement.program ⟨beginOf p.tokens, q.position⟩ name ∧ ps = a :: us ∧
      Pair.text a = name) rfl ?_ ?_
  · refine (word_tracks .program (by decide) p).bind ?_
    rintro _ q _ rfl hlt₁
    refine (identifier_tracks q).bind ?_
    rintro name r _ rfl hlt₂
    obtain ⟨names, s, us, hnames, hder, -, hlt₃⟩ :=
      ((parameterNames_tracks (p := r) (n := n) (by omega)).mono (Nat.le_succ _)).optional
      (Nat.lt_succ_self _)
    simp only [hnames]
    refine .seq hder (((endDot_tracks s).mono (by omega)).last ?_)
    rintro stop t ws ts ⟨rfl, rfl⟩
    exact ⟨_, rfl, name, _, us, rfl, by simp; rfl, rfl⟩
  · rintro s q ps ⟨name, a, us, rfl, rfl, rfl⟩
    exact ⟨_, rfl, by simp, rfl, rfl⟩

theorem bracketedTerm_tracks (file : Path) (hn : 2 * m ≤ n) (hp : p.tokens.length < m) :
    Tracks p.tokens.length (.seq (.text "[") (.seq (.rule .term) (.text "]"))) p
    (fun x q ps => x.2 = q.position ∧ ∃ pair : Pair, ps = [pair] ∧ pair.rule = .term ∧
      pair.term file = .ok (x.1.lower file)) (bracketedTerm n p.tokens) := by
  refine (symbol_tracks .openBracket rfl p).bind ?_
  rintro _ q _ ⟨-, rfl⟩ hlt
  refine (term_agrees file hn q (by omega)).bind ?_
  rintro type r _ ⟨-, pair, rfl, hrule, -, hterm⟩ hlt'
  refine ((symbol_tracks .closeBracket rfl r).mono (by omega)).last ?_
  rintro stop s us ts ⟨rfl, rfl⟩
  exact ⟨_, rfl, rfl, pair, rfl, hrule, hterm⟩

theorem foldlM_external {atom : Atom} {condition : List Literal} {a : Pair} {us : List Pair}
    (hrule : a.rule = .symbolicAtom) (ha : a.symbolicAtom file = .ok (atom.lower file))
    (hcondition : ConditionPairs file condition us) :
    (a :: us).foldlM (Pair.externalPart file) {} =
      .ok ⟨some (atom.lower file), lowerCondition file condition, none⟩ := by
  have hatom : Pair.externalPart file {} a = .ok { atom := some (atom.lower file) } := by
    simp only [Pair.externalPart, hrule, ha]
    rfl
  rw [List.foldlM_cons, hatom, ok_bind]
  cases hcondition with
  | none => rfl
  | some hrule h =>
    simp only [List.foldlM_cons, Pair.externalPart, hrule, h]
    rfl

theorem externalStatement_tracks (hn : 2 * m ≤ n) (hp : p.tokens.length < m) :
    TracksToDot p.tokens.length (.rule .external) p (StatementView file)
      (externalStatement n p.tokens) := by
  refine Mirrors.rule (R := fun s q ps => ∃ atom condition type,
    s = Statement.external ⟨beginOf p.tokens, q.position⟩ atom condition type ∧
      ps.foldlM (Pair.externalPart file) {} =
        .ok ⟨some (atom.lower file), lowerCondition file condition,
        Option.map (fun t => (Term.lower file t).render) type⟩) rfl ?_ ?_
  · refine (word_tracks .external (by decide) p).bind ?_
    rintro _ q _ rfl hlt₁
    refine (atom_agrees file hn q (by omega)).bind ?_
    rintro atom r _ ⟨-, a, rfl, hrule, hatom⟩ hlt₂
    obtain ⟨condition, s, us, hfound, hder, hpairs, hle⟩ := condition?_exists file hn r (by omega)
    have hfold := foldlM_external hrule hatom hpairs
    simp only [hfound]
    refine .seq hder (bracket_tracks
      (fun x => Statement.external ⟨beginOf p.tokens, x.2⟩ atom condition (some x.1))
      (fun stop => Statement.external ⟨beginOf p.tokens, stop⟩ atom condition none) s
      (show _ ≤ p.tokens.length by omega) (fun q hlt => bracketedTerm_tracks file hn (by omega))
      (fun _ _ _ => rfl) (fun _ _ _ _ h => by simp only [h]) (fun _ _ h => by simp only [h]) ?_ ?_)
    · rintro ⟨type, stop⟩ q _ ⟨rfl, pair, rfl, hrule, hterm⟩
      refine ⟨atom, condition, some type, rfl, ?_⟩
      have htype (seen : Pair.ExternalParts) : Pair.externalPart file seen pair =
          .ok { seen with type := some (type.lower file).render } := by
        simp only [Pair.externalPart, hrule, hterm]
        rfl
      change List.foldlM _ _ ((a :: us) ++ [pair]) = _
      rw [List.foldlM_append, hfold, ok_bind, List.foldlM_cons, htype]
      rfl
    · intro q
      refine ⟨atom, condition, none, rfl, ?_⟩
      simpa using hfold
  · rintro s q ps ⟨atom, condition, type, rfl, hfold⟩
    refine ⟨_, rfl, by simp, rfl, ?_⟩
    simp only [Pair.items, Pair.statement, Pair.external, hfold]
    rfl

section Weights

theorem priority_agrees (file : Path) (hn : 2 * m ≤ n) : Agrees m (.rule .priority)
    (fun t _ ps => ∃ pair inner : Pair, ps = [pair] ∧ pair.rule = .priority ∧ pair.inner = [inner] ∧
      inner.term file = .ok (t.lower file)) (priority n) := by
  intro p hp
  refine Mirrors.rule (R := TermView file) rfl ?_ ?_
  · refine (symbol_tracks .atSign rfl p).bind ?_
    rintro _ q _ ⟨-, rfl⟩ hlt
    exact (term_agrees file hn q (by omega)).mono (Nat.le_of_lt hlt)
  · rintro t q ps ⟨-, pair, rfl, -, -, hterm⟩
    exact ⟨_, pair, rfl, rfl, rfl, hterm⟩

/-- The lowered parts of a weight. -/
def Weight.parts (file : Path) (w : Weight) : Node × Option Node × List Node :=
  (w.weight.lower file, w.priority.map (Term.lower file), w.terms.map (Term.lower file))

theorem foldlM_terms {ts : List Term} (h : ManyView (TermView file) ts ps) {weight : Node}
    (priority : Option Node)
    (terms : List Node) : ps.foldlM (Pair.weightPart file) ⟨some weight, priority, terms⟩ =
      .ok ⟨some weight, priority, terms ++ ts.map (Term.lower file)⟩ := by
  induction h generalizing terms with
  | nil => simp; rfl
  | @cons t q _ more qs h hmore ih =>
    obtain ⟨-, pair, rfl, hrule, -, hterm⟩ := h
    have hfirst : Pair.weightPart file ⟨some weight, priority, terms⟩ pair =
        .ok ⟨some weight, priority, terms ++ [t.lower file]⟩ := by
      simp only [Pair.weightPart, hrule, hterm]
      rfl
    rw [List.singleton_append, List.foldlM_cons, hfirst, ok_bind, ih]
    simp

theorem weight_agrees (file : Path) (hn : 2 * m ≤ n) : Agrees m (.rule .weightSpec)
    (fun w _ ps => ∃ pair : Pair, ps = [pair] ∧ pair.weightSpec file = .ok (w.parts file))
    (weight n) := by
  intro p hp
  refine Mirrors.rule (R := fun w _ ps => ps.foldlM (Pair.weightPart file) {} =
    .ok ⟨some (w.weight.lower file), w.priority.map (Term.lower file),
      w.terms.map (Term.lower file)⟩) rfl ?_ ?_
  · refine (term_agrees file hn p hp).bind ?_
    rintro weight q _ ⟨-, a, rfl, hrule, -, hweight⟩ hlt₁
    obtain ⟨priority, r, us, hpriority, hder, hview, hlt₂⟩ :=
      ((priority_agrees file hn q (by omega)).mono (Nat.le_succ _)).optional (Nat.lt_succ_self _)
    simp only [hpriority]
    have hmany := Mirrors.many (after_agrees (separates_symbol .comma rfl) (term_agrees file hn))
      (show r.tokens.length < m by omega) (show r.tokens.length ≤ n by omega)
    simp only [further]
    generalize many (after (fun s => decide (s = Punct.comma)) (term n)) n r.tokens =
      more at hmany ⊢
    cases hmany with
    | taken hrep hall hbehind₃ =>
      obtain ⟨hlt₃⟩ := hbehind₃
      refine .seq hder (.taken hrep ?_ (.tokens (by omega)))
      have hfirst : Pair.weightPart file {} a = .ok { weight := some (weight.lower file) } := by
        simp only [Pair.weightPart, hrule, hweight]
        rfl
      have hsecond : us.foldlM (Pair.weightPart file) { weight := some (weight.lower file) } =
          .ok ⟨some (weight.lower file), priority.map (Term.lower file), []⟩ := by
        cases hview with
        | missing => rfl
        | there h =>
          obtain ⟨pair, inner, rfl, hrule, hinner, hterm⟩ := h
          simp only [List.foldlM_cons, Pair.weightPart, hrule, Pair.first, hinner, next, Except.map,
            ok_bind, hterm]
          rfl
      rw [List.singleton_append, List.foldlM_cons, hfirst, ok_bind, List.foldlM_append, hsecond,
        ok_bind, foldlM_terms hall.1]
      rfl
  · intro w q ps hfold
    refine ⟨_, rfl, ?_⟩
    simp only [Pair.weightSpec, hfold]
    rfl

theorem optimizeElement_agrees (file : Path) (hn : 2 * m ≤ n) : Agrees m (.rule .optimizeElement)
    (fun e _ ps => ∃ pair : Pair, ps = [pair] ∧
      ∀ maximize, pair.optimizeElement file maximize = .ok (e.lower file maximize))
        (optimizeElement n) := by
  intro p hp
  refine Mirrors.rule (R := fun e q ps => ∃ w condition a us,
    e = OptimizeElement.mk ⟨beginOf p.tokens, q.position⟩ w condition ∧ ps = a :: us ∧
      Pair.weightSpec file a = .ok (w.parts file) ∧ ConditionPairs file condition us) rfl ?_ ?_
  · refine (weight_agrees file hn p hp).bind ?_
    rintro w q _ ⟨a, rfl, hweight⟩ hlt
    obtain ⟨condition, r, us, hfound, hder, hpairs, hle⟩ := condition?_exists file hn q (by omega)
    simp only [hfound]
    exact .taken hder ⟨w, condition, a, us, rfl, rfl, hweight, hpairs⟩ (.tokens (by omega))
  · rintro e q ps ⟨w, condition, a, us, rfl, rfl, hweight, hpairs⟩
    refine ⟨_, rfl, fun maximize => ?_⟩
    simp only [Pair.optimizeElement, next, ok_bind, hweight, conditionOf_eq hpairs]
    rfl

theorem mapM_optimizeElement {es : List OptimizeElement} (maximize : Bool)
    (h : ManyView (fun e _ ps => ∃ pair : Pair, ps = [pair] ∧
      ∀ maximize, pair.optimizeElement file maximize =
        .ok (OptimizeElement.lower file maximize e)) es ps) :
    ps.mapM (Pair.optimizeElement file maximize) =
      .ok (es.map (OptimizeElement.lower file maximize)) := by
  induction h with
  | nil => rfl
  | cons h hmore ih =>
    obtain ⟨pair, rfl, hpair⟩ := h
    rw [List.singleton_append, List.mapM_cons, hpair, ih]
    rfl

end Weights

theorem optimizeStatement_tracks (hn : 2 * m ≤ n) (hp : p.tokens.length < m) :
    TracksToDot p.tokens.length (.rule .optimize) p (StatementView file)
      (optimizeStatement n p.tokens) := by
  have hkind : keywords.Picks [.minimize, .maximize] (fun word _ _ => word)
      (keywordWith fun k => decide (k = .minimize ∨ k = .maximize)) :=
    keywordWith_picks ⟨by decide, by unfold LongestFirst; decide, by decide⟩ (by simp)
  refine Mirrors.rule (R := fun s q ps => ∃ word elements a us,
    s = Statement.optimize ⟨beginOf p.tokens, q.position⟩ (word = .maximize) elements ∧
      ps = a :: us ∧ (Pair.text a = "#maximize" ↔ word = Keyword.maximize) ∧ ∀ maximize,
        us.mapM (Pair.optimizeElement file maximize) =
          .ok (elements.map (OptimizeElement.lower file maximize))) rfl ?_ ?_
  · refine (hkind.rule_tracks (r := .optimizeKind) rfl p).bind ?_
    rintro word q _ ⟨_, hword, rfl, rfl⟩ hlt₁
    refine (symbol_tracks .openBrace rfl q).bind ?_
    rintro _ r _ ⟨-, rfl⟩ hlt₂
    obtain ⟨elements, s, us, helements, hder, hall, hle⟩ := listed_exists (n := n) .semicolon rfl
      (optimizeElement_agrees file hn) (show r.tokens.length < m by omega) (by omega)
    simp only [semicolons_eq, helements]
    refine .seq hder ((symbol_tracks .closeBrace rfl s).bind ?_)
    rintro _ t _ ⟨-, rfl⟩ hlt₃
    refine ((endDot_tracks t).mono (by omega)).last ?_
    rintro stop u ws ts ⟨rfl, rfl⟩
    have htext : keywords.text word = "#maximize" ↔ word = .maximize := by
      obtain rfl | rfl : word = .minimize ∨ word = .maximize := by simpa using hword
      all_goals decide
    exact ⟨_, rfl, word, elements, _, us, rfl, by simp; rfl, htext,
      fun maximize => mapM_optimizeElement maximize hall⟩
  · rintro s q ps ⟨word, elements, a, us, rfl, rfl, htext, helements⟩
    refine ⟨_, rfl, by simp, rfl, ?_⟩
    simp only [Pair.items, Pair.optimize, next, ok_bind, helements, htext]
    simp only [Statement.lower, Except.mapError, List.map_map]
    rfl

theorem weakStatement_tracks (hn : 2 * m ≤ n) (hp : p.tokens.length < m) :
    TracksToDot p.tokens.length (.rule .weakConstraint) p (StatementView file)
      (weakStatement n p.tokens) := by
  refine Mirrors.rule (R := fun s q ps => ∃ es w a c,
    s = Statement.weak ⟨beginOf p.tokens, q.position⟩ es w ∧ ps = [a, c] ∧
      Pair.body file a = .ok (lowerBody file es) ∧
        Pair.weightSpec file c = .ok (w.parts file)) rfl ?_ ?_
  · refine (symbol_tracks .weakIf rfl p).bind ?_
    rintro _ q _ ⟨-, rfl⟩ hlt₁
    refine (body_agrees file hn q (by omega)).bind ?_
    rintro es r _ ⟨a, rfl, -, hbody⟩ hlt₂
    refine endDot_bind r ?_ ?_
    · intro s hlt₃
      refine (symbol_tracks .openBracket rfl s).bind ?_
      rintro _ t _ ⟨-, rfl⟩ hlt₄
      refine (weight_agrees file hn t (by omega)).bind ?_
      rintro w u _ ⟨c, rfl, hweight⟩ hlt₅
      refine (((symbol_tracks .closeBracket rfl u).mono (by omega)).last ?_).toDot
      rintro stop v us ts ⟨rfl, rfl⟩
      exact ⟨_, rfl, es, w, a, c, rfl, rfl, hbody, hweight⟩
    · intro q cs stop ts hrest hskip
      have hlead : "[".toList = ['['] := rfl
      refine .refused (.noFirst (.noText ?_))
      rw [hskip]
      simp [hlead, hrest, Text.afterLead?]
  · rintro s q ps ⟨es, w, a, c, rfl, rfl, hbody, hweight⟩
    refine ⟨_, rfl, by simp, rfl, ?_⟩
    simp only [Pair.items, Pair.statement, Pair.weakConstraint, next, ok_bind, hbody, hweight]
    rfl

section Rules

theorem arrowBody_agrees (file : Path) (hn : 2 * m ≤ n) :
    Agrees m (.seq (.text ":-") (.opt (.rule .body)))
      (fun es _ ps => ∃ found : Option (List BodyElement), es = found.getD [] ∧
        BodyPairs file found ps)
      (arrowBody n) := by
  intro p hp
  refine (symbol_tracks .ifThen rfl p).bind ?_
  rintro _ q _ ⟨-, rfl⟩ hlt
  obtain ⟨es, r, us, hes, hder, hview, hle⟩ :=
    ((body_agrees file hn q (by omega)).mono (Nat.le_succ _)).optional (Nat.lt_succ_self _)
  simp only [hes]
  exact .taken hder ⟨es, rfl, .of_view hview⟩ (.tokens (by omega))

theorem foldlM_body {es : Option (List BodyElement)} (h : BodyPairs file es ps)
    (head : Option Node) :
    ps.foldlM (Pair.rulePart file) (head, []) = .ok (head, lowerBody file (es.getD [])) := by
  cases h with
  | none => rfl
  | some hrule h =>
    simp only [List.foldlM_cons, Pair.rulePart, hrule, h]
    rfl

/-- The parts of a rule. -/
def RuleParts (file : Path) (begin : Position) : View Statement := fun s q ps => ∃ head es,
  s = .rule ⟨begin, q.position⟩ head es ∧
    ps.foldlM (Pair.rulePart file) (none, []) = .ok (head.map (Head.lower file), lowerBody file es)

theorem headedRule_tracks (file : Path) (hn : 2 * m ≤ n) (hp : p.tokens.length < m) :
    TracksToDot p.tokens.length
      (Expr.parts [.rule .head, .opt (.seq (.text ":-") (.opt (.rule .body))), .text "."])
      p (RuleParts file (beginOf p.tokens)) (headedRule n p.tokens) := by
  refine (head_agrees file hn p hp).bind ?_
  rintro head q _ ⟨a, rfl, hrule, hhead⟩ hlt₁
  obtain ⟨es, r, us, hes, hder, hview, hlt₂⟩ :=
    ((arrowBody_agrees file hn q (by omega)).mono (Nat.le_succ _)).optional (Nat.lt_succ_self _)
  simp only [hes]
  refine .seq hder (((endDot_tracks r).mono (by omega)).last ?_)
  rintro stop s ws ts ⟨rfl, rfl⟩
  refine ⟨_, rfl, some head, es.getD [], rfl, ?_⟩
  have hfirst : Pair.rulePart file (none, []) a = .ok (some (head.lower file), []) := by
    simp only [Pair.rulePart, hrule, hhead]
    rfl
  rw [List.append_nil, List.singleton_append, List.foldlM_cons, hfirst, ok_bind]
  cases hview with
  | missing => rfl
  | there h =>
    obtain ⟨found, rfl, hbody⟩ := h
    exact foldlM_body hbody _

theorem constraintRule_eq (ts : List Token) : constraintRule n ts = (punct .ifThen ts).bind fun x =>
    (endDot (optional (body n) x.2).2).bind fun y =>
      some (.rule ⟨beginOf ts, y.1⟩ none ((optional (body n) x.2).1.getD []), y.2) := by
  unfold constraintRule arrowBody
  cases punct .ifThen ts <;> rfl

theorem constraintRule_tracks (hn : 2 * m ≤ n) (hp : p.tokens.length < m) :
    TracksToDot p.tokens.length (Expr.parts [.text ":-", .opt (.rule .body), .text "."]) p
      (RuleParts file (beginOf p.tokens)) (constraintRule n p.tokens) := by
  rw [constraintRule_eq]
  refine (symbol_tracks .ifThen rfl p).bind ?_
  rintro _ q _ ⟨-, rfl⟩ hlt₁
  obtain ⟨es, r, us, hes, hder, hview, hlt₂⟩ :=
    ((body_agrees file hn q (by omega)).mono (Nat.le_succ _)).optional (Nat.lt_succ_self _)
  simp only [hes]
  refine .seq hder (((endDot_tracks r).mono (by omega)).last ?_)
  rintro stop s ws ts ⟨rfl, rfl⟩
  refine ⟨_, rfl, none, es.getD [], rfl, ?_⟩
  simpa using foldlM_body (.of_view hview) none

theorem rule_tracks (hn : 2 * m ≤ n) (hp : p.tokens.length < m) :
    TracksToDot p.tokens.length (.rule .normalRule) p (StatementView file)
      (headedRule n p.tokens <|> constraintRule n p.tokens) := by
  refine Mirrors.rule rfl ((headedRule_tracks file hn hp).or (constraintRule_tracks hn hp)) ?_
  rintro s q ps ⟨head, es, rfl, hfold⟩
  refine ⟨_, rfl, by simp, rfl, ?_⟩
  simp only [Pair.items, Pair.statement, Pair.normalRule, hfold]
  cases head <;> rfl

end Rules

/-- Every statement is read as the grammar matches it. -/
theorem statement_tracks (file : Path) (hn : 2 * m ≤ n) (hp : p.tokens.length < m) :
    TracksToDot p.tokens.length Grammar.statement p (StatementView file) (statement n p.tokens) :=
  (includeStatement_tracks p).or <| (constantStatement_tracks hn hp).or <|
  (definedStatement_tracks p).or <|
    (showAllStatement_tracks p).or <| (showSignatureStatement_tracks p).or <|
    (showTermStatement_tracks hn hp).or <| (programStatement_tracks hn hp).or <|
    (externalStatement_tracks hn hp).or <| (optimizeStatement_tracks hn hp).or <|
    (weakStatement_tracks hn hp).or (rule_tracks hn hp)

end AspAtlas.Surface
