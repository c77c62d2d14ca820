import AspAtlas.Grammar.Lowering
import AspAtlas.Proofs.Grammar.Words
/-!
Terms: what the readers find is what the grammar matches, and the pairs of the
matches lower to the same tree.
-/
namespace AspAtlas.Surface

open Grammar

variable {α β γ : Type} {m n k : Nat} {d e sep : Expr Rule} {p q : Place} {Q : View α}

@[simp] theorem ok_bind {ε α β : Type} (a : α) (f : α → Except ε β) :
    (Except.ok a >>= f) = f a := rfl

/-- A reader follows an expression at every place with fewer than `m`
tokens, and takes one at least. -/
def Agrees (m : Nat) (e : Expr Rule) (Q : View α) (f : Reader α) : Prop :=
  ∀ p : Place, p.tokens.length < m → Tracks p.tokens.length e p Q (f p.tokens)

/-- A separator leaves no pairs. -/
def Separates (separator : Punct → Bool) (sep : Expr Rule) : Prop :=
  ∀ p : Place, Tracks p.tokens.length sep p (fun _ _ ps => ps = []) (punctWith separator p.tokens)

theorem after_agrees {separator : Punct → Bool} {f : Reader α} (hsep : Separates separator sep)
    (h : Agrees m e Q f) : Agrees m (.seq sep e) Q (after separator f) := by
  intro p hp
  refine (hsep p).bind ?_
  rintro s q ps rfl hlt
  exact (h q (Nat.lt_trans hlt hp)).mono (Nat.le_of_lt hlt)

/-- A construct and the further ones behind it, made into one. -/
theorem row_tracks {f : Reader α} {item : Reader γ} {S : View γ} {R : View β}
    {g : α × List Token → Option (β × List Token)} (stop : γ → Position)
    (make : α → List γ → Position → β)
    (h : Agrees m e Q f) (hitem : Agrees m d S item)
    (hstop : ∀ r q ps, S r q ps → stop r = q.position) (hg : ∀ first rest, g (first, rest) =
      some (make first (many item n rest).1 (endOf stop (many item n rest).1 rest),
        (many item n rest).2))
    (hp : p.tokens.length < m) (hm : m ≤ n + 1)
    (hview : ∀ first more q s ps qs, Q first q ps → ManyView S more qs →
      R (make first more s.position) s (ps ++ qs)) :
    Tracks p.tokens.length (.seq e (.rep d)) p R ((f p.tokens).bind g) := by
  refine (h p hp).bind ?_
  intro first q ps hfirst hlt
  have hmany := Mirrors.many hitem (show q.tokens.length < m by omega)
    (show q.tokens.length ≤ n by omega)
  rw [hg]
  generalize many item n q.tokens = more at hmany ⊢
  cases hmany with
  | taken hder hall hbehind' =>
    obtain ⟨hlt'⟩ := hbehind'
    refine .taken hder ?_ (.tokens (by omega))
    rw [← hall.2 stop hstop]
    exact hview _ _ _ _ _ _ hfirst hall.1

/-- A list of constructs with separators in between, made into one. -/
theorem separated_tracks {separator : Punct → Bool} {f : Reader α} {R : View β}
    {g : α × List Token → Option (β × List Token)} (stop : α → Position)
    (make : α → List α → Position → β) (hsep : Separates separator sep) (h : Agrees m e Q f)
    (hstop : ∀ r q ps, Q r q ps → stop r = q.position)
    (hg : ∀ first rest, g (first, rest) = some (make first (further n separator f rest).1
      (endOf stop (further n separator f rest).1 rest), (further n separator f rest).2))
    (hp : p.tokens.length < m) (hm : m ≤ n + 1)
    (hview : ∀ first more s ps, ManyView Q (first :: more) ps →
      R (make first more s.position) s ps) :
    Tracks p.tokens.length (Expr.separated sep e) p R ((f p.tokens).bind g) :=
  row_tracks stop make h (after_agrees hsep h) hstop hg hp hm
    fun _ _ _ _ _ _ hfirst hmore => hview _ _ _ _ (.cons hfirst hmore)

/-- Parts of the vocabularies that have all that go on with one of their own. -/
theorem closed_symbols {part : List Punct} (h : ∀ a ∈ part, a ∈ Punct.all)
    (hsorted : part.Pairwise fun a b => ¬ a.text.toList <+: b.text.toList)
    (hlonger : ∀ a ∈ part, ∀ b ∈ Punct.all, a.text.toList <+: b.text.toList → b ∈ part) :
    UpwardClosed Punct.text Punct.all part := ⟨h, hsorted, hlonger⟩

/-- The symbols that another one starts with. -/
def Punct.hasLonger (s : Punct) : Bool := s ∈ [Punct.less, .greater, .equal, .times, .dot, .colon]

theorem closed_symbol (s : Punct) (hs : s.hasLonger = false) :
    UpwardClosed Punct.text Punct.all [s] := by
  refine closed_symbols ?_ (List.pairwise_singleton _ _) ?_
  · cases s <;> decide
  · revert hs
    cases s <;> decide

theorem separates_symbol (s : Punct) (hs : s.hasLonger = false) :
    Separates (fun other => decide (other = s)) (.text s.text) := fun p =>
  ((punctWith_picks (closed_symbol s hs) (by simp)).tracks p).imp fun _ _ _ h => h.2

theorem symbol_tracks (s : Punct) (hs : s.hasLonger = false) (p : Place) :
    Tracks p.tokens.length (.text s.text) p (fun stop q ps => stop = q.position ∧ ps = [])
      (punct s p.tokens) :=
  punct_tracks s (closed_symbol s hs) p

section Views

variable (file : Path)

/-- The view of an operand. -/
def FactorView : View Factor := fun f q ps =>
  f.span.stop = q.position ∧ ∃ pair : Pair, ps = [pair] ∧ pair.operand file = .ok (f.lower file)

/-- The view of a term. -/
def TermView : View Term := fun t q ps =>
  t.span.stop = q.position ∧
    ∃ pair : Pair, ps = [pair] ∧ pair.rule = .term ∧ pair.span = t.span ∧
      pair.term file = .ok (t.lower file)

/-- The view of a list of terms. -/
def TermsView : View Terms := fun t q ps =>
  t.span.stop = q.position ∧
    ∃ pair : Pair, ps = [pair] ∧ pair.rule = .terms ∧ pair.span = t.span ∧
      pair.terms file = .ok (t.lower file)

/-- The view of alternative argument lists. -/
def PoolView : View Pool := fun pool _ ps =>
  ∃ pair : Pair, ps = [pair] ∧ pair.rule = .arguments ∧ pair.arguments file = .ok (pool.lower file)

end Views

section Terms

variable {file : Path} {f : Reader Term} {g : Reader Factor}

theorem termList_eq {ts : List Term} {ps : List Pair} (h : ManyView (TermView file) ts ps) :
    Pair.termList file ps = .ok (lowerTerms file ts) := by
  induction h with
  | nil => rfl
  | cons h hmore ih =>
    obtain ⟨-, pair, rfl, -, -, hpair⟩ := h
    simp only [List.singleton_append, Pair.termList, hpair, ih, lowerTerms]
    rfl

theorem alternatives_eq {ts : List Terms} {ps : List Pair} (h : ManyView (TermsView file) ts ps) :
    Pair.alternatives file ps = .ok (lowerAlternatives file ts) := by
  induction h with
  | nil => rfl
  | cons h hmore ih =>
    obtain ⟨-, pair, rfl, -, hspan, hpair⟩ := h
    simp only [List.singleton_append, Pair.alternatives, hpair, ih, lowerAlternatives, hspan]
    rfl

theorem terms_agree (h : Agrees m (.rule .term) (TermView file) f) (hn : m ≤ n + 1) :
    Agrees m (.rule .terms) (TermsView file) (termsOf n f) := by
  intro p hp
  refine Mirrors.rule (R := fun ts q ps => ∃ first more,
    ts = Terms.list ⟨beginOf p.tokens, q.position⟩ first more ∧
      ManyView (TermView file) (first :: more) ps) rfl ?_ ?_
  · exact separated_tracks (fun t : Term => t.span.stop)
      (fun first more stop => Terms.list ⟨beginOf p.tokens, stop⟩ first more)
      (separates_symbol .comma rfl) h (fun _ _ _ h => h.1) (fun _ _ => rfl) hp hn
      (fun _ _ _ _ h => ⟨_, _, rfl, h⟩)
  · rintro ts q ps ⟨first, more, rfl, hall⟩
    refine ⟨rfl, _, rfl, rfl, rfl, ?_⟩
    simp only [Pair.terms, termList_eq hall, Terms.lower, lowerTerms]

theorem pool_agrees (h : Agrees m (.rule .term) (TermView file) f) (hn : m ≤ n + 1) :
    Agrees m (.rule .arguments) (PoolView file) (poolOf n f) := by
  intro p hp
  refine Mirrors.rule (R := fun pool q ps => ∃ first more, pool = Pool.alternatives first more ∧
      ManyView (TermsView file) (first :: more) ps) rfl ?_ ?_
  · exact separated_tracks (fun t : Terms => t.span.stop)
      (fun first more _ => Pool.alternatives first more) (separates_symbol .semicolon rfl)
      (terms_agree h hn) (fun _ _ _ h => h.1) (fun _ _ => rfl) hp hn
      (fun _ _ _ _ h => ⟨_, _, rfl, h⟩)
  · rintro pool q ps ⟨first, more, rfl, hall⟩
    refine ⟨_, rfl, rfl, ?_⟩
    cases hall with
    | cons hfirst hmore =>
      obtain ⟨-, pair, rfl, -, -, hpair⟩ := hfirst
      simp only [List.singleton_append, Pair.arguments, hpair, alternatives_eq hmore, Pool.lower]
      rfl

/-- The view of arguments in parentheses: their pair, unless there are none. -/
inductive PoolPairs (file : Path) : Option Pool → List Pair → Prop
  | none : PoolPairs file none []
  | some {pool : Pool} {pair : Pair} (hrule : pair.rule = .arguments)
      (h : pair.arguments file = .ok (pool.lower file)) : PoolPairs file (some pool) [pair]

theorem PoolPairs.of_view {pool : Option Pool} {q : Place} {ps : List Pair}
    (h : OptionView (PoolView file) p pool q ps) : PoolPairs file pool ps := by
  cases h with
  | missing => exact .none
  | there h =>
    obtain ⟨pair, rfl, hrule, hpair⟩ := h
    exact .some hrule hpair

theorem arguments_agree (h : Agrees m (.rule .term) (TermView file) f) (hn : m ≤ n + 1) :
    Agrees (m + 1) (Expr.parts [.text "(", .opt (.rule .arguments), .text ")"])
      (fun x q ps => x.2 = q.position ∧ PoolPairs file x.1 ps) (argumentsOf n f) := by
  intro p hp
  refine (symbol_tracks .opening rfl p).bind ?_
  rintro _ q ps ⟨-, rfl⟩ hlt
  obtain ⟨pool, r, ps, hfound, hder, hpool, hlt'⟩ :=
    ((pool_agrees h hn q (by omega)).mono (Nat.le_succ _)).optional (Nat.lt_succ_self _)
  simp only [hfound]
  refine .seq hder (((symbol_tracks .closing rfl r).mono (by omega)).last ?_)
  rintro stop s qs ts ⟨hstop, rfl⟩
  exact ⟨_, rfl, hstop, by simpa using PoolPairs.of_view hpool⟩

theorem tuple_agrees (h : Agrees m (.rule .term) (TermView file) f) (hn : m ≤ n + 1) :
    Agrees (m + 1) (.rule .tuple) (FactorView file) (tupleOf n f) := by
  intro p hp
  refine Mirrors.rule (R := fun x q ps => ∃ pool,
    x = Factor.tuple ⟨beginOf p.tokens, q.position⟩ pool ∧ PoolPairs file pool ps) rfl ?_ ?_
  · refine (symbol_tracks .opening rfl p).bind ?_
    rintro _ q ps ⟨-, rfl⟩ hlt
    obtain ⟨pool, r, ps, hpool, hder, hview, hlt'⟩ :=
      ((pool_agrees h hn q (by omega)).mono (Nat.le_succ _)).optional (Nat.lt_succ_self _)
    obtain ⟨comma, s, qs, hcomma, hder', hview', hlt''⟩ :=
      ((symbol_tracks .comma rfl r).mono (Nat.le_succ _)).optional (Nat.lt_succ_self _)
    obtain rfl := hview'.pairs_nil fun _ _ _ h => h.2
    simp only [hpool, hcomma]
    refine .seq hder (.seq hder' (((symbol_tracks .closing rfl s).mono (by omega)).last ?_))
    rintro stop t us ts ⟨rfl, rfl⟩
    exact ⟨_, rfl, _, rfl, by simpa using PoolPairs.of_view hview⟩
  · rintro x q ps ⟨pool, rfl, hpool⟩
    refine ⟨rfl, _, rfl, ?_⟩
    cases hpool with
    | none => rfl
    | some hrule h =>
      simp only [Pair.operand, h, Factor.lower]
      rfl

theorem absolute_agrees (h : Agrees m (.rule .term) (TermView file) f) :
    Agrees (m + 1) (.rule .absolute) (FactorView file) (absoluteOf f) := by
  intro p hp
  refine Mirrors.rule (R := fun x q ps => ∃ t s,
    x = Factor.absolute ⟨beginOf p.tokens, q.position⟩ t ∧ TermView file t s ps) rfl ?_ ?_
  · refine (symbol_tracks .bar rfl p).bind ?_
    rintro _ q ps ⟨-, rfl⟩ hlt
    refine ((h q (by omega)).bind ?_)
    intro t r ps hview hlt'
    refine ((symbol_tracks .bar rfl r).mono (by omega)).last ?_
    rintro stop s us ts ⟨rfl, rfl⟩
    exact ⟨_, rfl, _, _, rfl, by simpa using hview⟩
  · rintro x q ps ⟨t, s, rfl, -, pair, rfl, -, -, hpair⟩
    refine ⟨rfl, _, rfl, ?_⟩
    simp only [Pair.operand, hpair, Factor.lower]
    rfl

theorem identifier_picks : names.Picks (fun name _ _ => name) identifier where
  own _ _ _ _ := rfl
  other := by
    rintro ⟨lexeme, b, e⟩ ts h
    cases lexeme <;> simp_all [names, identifier]

theorem identifier_tracks (p : Place) : Tracks p.tokens.length (.rule .identifier) p
    (fun name q ps => ps = [⟨.identifier, ⟨beginOf p.tokens, q.position⟩, name, []⟩])
    (identifier p.tokens) :=
  (identifier_picks.tracks names_cuts p).imp fun _ _ _ ⟨_, hname, hps⟩ => by rw [hname, hps]

theorem function_agrees (h : Agrees m (.rule .term) (TermView file) f) (hn : m ≤ n + 1) :
    Agrees (m + 1) (.rule .function) (FactorView file) (functionOf n f) := by
  intro p hp
  refine Mirrors.rule (R := fun x q ps => ∃ (name : String) (pool : Option Pool) (pair : Pair)
    (qs : List Pair),
    x = Factor.function ⟨beginOf p.tokens, q.position⟩ name pool ∧ ps = pair :: qs ∧
    pair.text = name ∧
      PoolPairs file pool qs) rfl ?_ ?_
  · refine (identifier_tracks p).bind ?_
    rintro name q ps rfl hlt
    have hargs := arguments_agree h hn q (by omega)
    dsimp only
    generalize argumentsOf n f q.tokens = x at hargs ⊢
    cases hargs with
    | refused hnone =>
      refine .missing hnone ⟨name, none, _, [], ?_, rfl, rfl, .none⟩ hlt
      rw [q.beginOf_tokens]
    | @taken x s qs _ hder hview hbehind' =>
      obtain ⟨hlt'⟩ := hbehind'
      obtain ⟨pool, stop⟩ := x
      obtain ⟨rfl, hpool⟩ := hview
      exact .there hder ⟨name, pool, _, qs, rfl, rfl, rfl, hpool⟩ (by omega)
  · rintro x q ps ⟨name, pool, pair, qs, rfl, rfl, rfl, hpool⟩
    refine ⟨rfl, _, rfl, ?_⟩
    cases hpool with
    | none => rfl
    | some hrule h =>
      simp only [Pair.operand, h, Factor.lower]
      rfl

theorem negation_agrees (h : Agrees m unaryTerm (FactorView file) g) :
    Agrees (m + 1) (.rule .negation) (FactorView file) (negationOf g) := by
  intro p hp
  refine Mirrors.rule (R := fun x q ps => ∃ inner,
    x = Factor.negation ⟨beginOf p.tokens, q.position⟩ inner ∧ FactorView file inner q ps) rfl ?_ ?_
  · refine (symbol_tracks .minus rfl p).bind ?_
    rintro _ q ps ⟨-, rfl⟩ hlt
    refine ((h q (by omega)).mono (by omega)).last ?_
    intro inner r ps ts hview
    refine ⟨_, rfl, inner, ?_, by simpa using hview⟩
    rw [hview.1]
  · rintro x q ps ⟨inner, rfl, -, pair, rfl, hpair⟩
    refine ⟨rfl, _, rfl, ?_⟩
    simp only [Pair.operand, hpair, Factor.lower]
    rfl

/-- A variable. -/
def varFactor : Reader Factor
  | ⟨.var text, begin, stop⟩ :: ts => some (.var ⟨begin, stop⟩ text, ts)
  | _ => none

/-- A number. -/
def numberFactor : Reader Factor
  | ⟨.number text, begin, stop⟩ :: ts => some (.constant ⟨begin, stop⟩ text, ts)
  | _ => none

/-- A quoted text. -/
def quotedFactor : Reader Factor
  | ⟨.quoted text, begin, stop⟩ :: ts => some (.constant ⟨begin, stop⟩ text, ts)
  | _ => none

/-- One of some constants written as keywords. -/
def keywordFactor (part : List Keyword) : Reader Factor
  | ⟨.keyword word, begin, stop⟩ :: ts =>
    if word ∈ part then some (.constant ⟨begin, stop⟩ word.text, ts) else none
  | _ => none

theorem simpleFactor_eq (ts : List Token) : simpleFactor ts =
    (varFactor ts <|> numberFactor ts <|> quotedFactor ts <|> keywordFactor [.supremum, .sup] ts
      <|> keywordFactor [.infimum, .inf] ts) := by
  cases ts with
  | nil => rfl
  | cons t ts =>
    obtain ⟨lexeme, begin, stop⟩ := t
    cases lexeme with
    | keyword word => cases word <;> rfl
    | _ => rfl

theorem keywordFactor_picks {part : List Keyword}
    (hpart : UpwardClosed Keyword.text Keyword.all part) :
    keywords.Picks part (fun k b e => .constant ⟨b, e⟩ k.text) (keywordFactor part) where
  closed := hpart
  own a ha b e ts := by simp [keywords, keywordFactor, ha]
  other := by
    rintro ⟨lexeme, b, e⟩ ts h
    cases lexeme with
    | keyword k =>
      have hk : k ∉ part := fun he => h k he rfl
      simp [keywordFactor, hk]
    | _ => rfl

/-- A unit on its own lowers to a name of its text. -/
theorem Tracks.unit {r : Rule} {x : Option (Factor × List Token)} (make : Span → String → Factor)
    (hspan : ∀ span text, (make span text).span = span)
    (hpair : ∀ span text, Pair.operand file ⟨r, span, text, []⟩ = .ok ((make span text).lower file))
    (h : Tracks k (.rule r) p (fun b q ps => ∃ text, b = make ⟨beginOf p.tokens, q.position⟩ text ∧
      ps = [⟨r, ⟨beginOf p.tokens, q.position⟩, text, []⟩]) x) :
    Tracks k (.rule r) p (FactorView file) x := by
  refine h.imp ?_
  rintro b q ps ⟨text, rfl, rfl⟩
  exact ⟨by rw [hspan], _, rfl, hpair _ _⟩

theorem keywordFactor_tracks {part : List Keyword} {r : Rule}
    (hpart : UpwardClosed Keyword.text Keyword.all part)
    (hr : definition r = ⟨Expr.spellings (part.map Keyword.text), true⟩)
    (hpair : ∀ span text, Pair.operand file ⟨r, span, text, []⟩ =
      .ok ((Factor.constant span text).lower file))
    (p : Place) : Tracks p.tokens.length (.rule r) p (FactorView file)
    (keywordFactor part p.tokens) := by
  refine .unit Factor.constant (fun _ _ => rfl) hpair ?_
  refine ((keywordFactor_picks hpart).rule_tracks hr p).imp ?_
  rintro b q ps ⟨a, -, rfl, rfl⟩
  exact ⟨_, rfl, rfl⟩

theorem varFactor_tracks (p : Place) :
    Tracks p.tokens.length (.rule .var) p (FactorView file) (varFactor p.tokens) := by
  refine .unit Factor.var (fun _ _ => rfl) (fun _ _ => rfl) ?_
  refine Kind.Picks.tracks (k := variableWords) (f := varFactor)
    ⟨fun _ _ _ _ => rfl, ?_⟩ variables_cuts p
  rintro ⟨lexeme, b, e⟩ ts h
  cases lexeme <;> simp_all [variableWords, varFactor]

theorem numberFactor_tracks (p : Place) :
    Tracks p.tokens.length (.rule .number) p (FactorView file) (numberFactor p.tokens) := by
  refine .unit Factor.constant (fun _ _ => rfl) (fun _ _ => rfl) ?_
  refine Kind.Picks.tracks (k := numbers) (f := numberFactor)
    ⟨fun _ _ _ _ => rfl, ?_⟩ numbers_cuts p
  rintro ⟨lexeme, b, e⟩ ts h
  cases lexeme <;> simp_all [numbers, numberFactor]

theorem quotedFactor_tracks (p : Place) :
    Tracks p.tokens.length (.rule .string) p (FactorView file) (quotedFactor p.tokens) := by
  refine .unit Factor.constant (fun _ _ => rfl) (fun _ _ => rfl) ?_
  refine Kind.Picks.tracks (k := strings) (f := quotedFactor)
    ⟨fun _ _ _ _ => rfl, ?_⟩ strings_cuts p
  rintro ⟨lexeme, b, e⟩ ts h
  cases lexeme <;> simp_all [strings, quotedFactor]

/-- A variable, number, quoted text or extreme constant. -/
theorem simpleFactor_tracks (p : Place) : Tracks p.tokens.length
    (Expr.oneOf [.rule .var, .rule .number, .rule .string, .rule .supremum, .rule .infimum]) p
    (FactorView file) (simpleFactor p.tokens) := by
  rw [simpleFactor_eq]
  refine (varFactor_tracks p).or ((numberFactor_tracks p).or ((quotedFactor_tracks p).or
    ((keywordFactor_tracks ?_ rfl (fun _ _ => rfl) p).or
      (keywordFactor_tracks ?_ rfl (fun _ _ => rfl) p))))
  · exact ⟨by decide, by unfold LongestFirst; decide, by decide⟩
  · exact ⟨by decide, by unfold LongestFirst; decide, by decide⟩

/-- The view of an arithmetic symbol and the operand behind it. -/
def OperandView (file : Path) : View (Punct × Factor) := fun x q ps =>
  x.2.span.stop = q.position ∧ ∃ operator pair : Pair, ps = [operator, pair] ∧
    operator.text = x.1.text ∧ pair.operand file = .ok (x.2.lower file)

theorem arithmetic_tracks (p : Place) : Tracks p.tokens.length (.rule .binaryOp) p
    (fun s _ ps => ∃ pair : Pair, ps = [pair] ∧ pair.text = s.text)
    (punctWith Punct.isArithmetic p.tokens) := by
  have hpart : UpwardClosed Punct.text Punct.all
      [.dots, .power, .plus, .minus, .times, .slash, .backslash, .ampersand, .question, .caret] :=
    closed_symbols (by decide) (by decide) (by decide)
  refine ((punctWith_picks hpart (by intro s; cases s <;> decide)).rule_tracks rfl p).imp ?_
  rintro s q ps ⟨a, -, rfl, rfl⟩
  exact ⟨_, rfl, rfl⟩

theorem operand_agrees (h : Agrees m unaryTerm (FactorView file) g) :
    Agrees m (.seq (.rule .binaryOp) unaryTerm) (OperandView file) (operandOf g) := by
  intro p hp
  refine (arithmetic_tracks p).bind ?_
  rintro s q ps ⟨operator, rfl, htext⟩ hlt
  refine ((h q (by omega)).mono (by omega)).last ?_
  rintro x r qs ts ⟨hstop, pair, rfl, hpair⟩
  exact ⟨_, rfl, hstop, operator, pair, rfl, htext, hpair⟩

theorem joined_eq (left right : Node) (s : Punct) :
    Pair.joined file left s.text right = joinTerms file left s right := by
  have hdots : s.text = ".." ↔ s = .dots := by cases s <;> simp [Punct.text]
  simp only [Pair.joined, joinTerms, hdots]

theorem chain_eq {rest : List (Punct × Factor)} {ps : List Pair}
    (h : ManyView (OperandView file) rest ps)
    (left : Node) : Pair.chain file left ps = .ok (lowerChain file left rest) := by
  induction h generalizing left with
  | nil => rfl
  | cons h hmore ih =>
    obtain ⟨-, operator, pair, rfl, htext, hpair⟩ := h
    simp only [List.cons_append, List.nil_append, Pair.chain, hpair, htext, joined_eq,
      lowerChain, ← ih]
    rfl

theorem chain_agrees (h : Agrees m unaryTerm (FactorView file) g) (hn : m ≤ n + 1) :
    Agrees m (.rule .term) (TermView file) (chainOf n g) := by
  intro p hp
  refine Mirrors.rule (R := fun t q ps => ∃ first rest s qs us,
    t = Term.chain ⟨beginOf p.tokens, q.position⟩ first rest ∧ ps = qs ++ us ∧
      FactorView file first s qs ∧ ManyView (OperandView file) rest us) rfl ?_ ?_
  · exact row_tracks (fun x : Punct × Factor => x.2.span.stop)
      (fun first rest stop => Term.chain ⟨beginOf p.tokens, stop⟩ first rest) h (operand_agrees h)
      (fun _ _ _ h => h.1) (fun _ _ => rfl) hp hn
      (fun _ _ _ _ _ _ hfirst hmore => ⟨_, _, _, _, _, rfl, rfl, hfirst, hmore⟩)
  · rintro t q ps ⟨first, rest, s, qs, us, rfl, rfl, ⟨-, pair, rfl, hpair⟩, hmore⟩
    refine ⟨rfl, _, rfl, rfl, rfl, ?_⟩
    simp only [List.singleton_append, Pair.term, hpair, Term.lower, ← chain_eq hmore]
    rfl

/-- A larger bound on nesting and length serves for longer texts. -/
theorem term_factor_agree (file : Path) (n : Nat) :
    (∀ m, 2 * m ≤ n → Agrees m (.rule .term) (TermView file) (term n)) ∧
      ∀ m, 2 * m ≤ n + 1 → Agrees m unaryTerm (FactorView file) (factor n) := by
  induction n with
  | zero =>
    constructor <;> intro m hm p hp <;> omega
  | succ n ih =>
    obtain ⟨hterm, hfactor⟩ := ih
    constructor
    · intro m hm
      exact chain_agrees (hfactor m hm) (by omega)
    · intro m hm
      cases m with
      | zero => intro p hp; omega
      | succ m =>
        have ht := hterm m (by omega)
        intro p hp
        exact (negation_agrees (hfactor m (by omega)) p hp).or ((tuple_agrees ht (by omega) p hp).or
          ((absolute_agrees ht p hp).or
            ((function_agrees ht (by omega) p hp).or (simpleFactor_tracks p))))

end Terms

end AspAtlas.Surface
