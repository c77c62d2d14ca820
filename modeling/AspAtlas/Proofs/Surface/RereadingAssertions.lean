import AspAtlas.Proofs.Statement.Mentions
import AspAtlas.Proofs.Surface.Atoms
import AspAtlas.Proofs.Surface.Conditions
import AspAtlas.Proofs.Surface.Rereading
import AspAtlas.Proofs.Surface.StatementText
/-!
Reading written assertions. The text of an assertion is read as one that mentions the
same. The word that negates may also name a constant or a function, so that a comparison
of such a term has two readings.
-/
namespace AspAtlas.Surface

open Node

variable {n : Nat} {t : Token} {ts us vs rest : List Token} {l : Lexeme}
    {ls a b os ps : List Lexeme} {file : Path}

/-- Tokens that start with one of some symbols. -/
def OpensWith (symbols : List Punct) (ts : List Token) : Prop :=
  ∃ s ∈ symbols, ∃ b e rest, ts = ⟨.punct s, b, e⟩ :: rest

theorem OpensWith.mono {symbols more : List Punct} (h : OpensWith symbols ts)
    (hle : ∀ s ∈ symbols, s ∈ more) : OpensWith more ts := by
  obtain ⟨s, hs, found⟩ := h
  exact ⟨s, hle s hs, found⟩

theorem OpensWith.past {symbols : List Punct} (h : OpensWith symbols ts)
    (goesOn : Punct → Bool) (hstop : ∀ s ∈ symbols, goesOn s = false) : Past goesOn ts := by
  obtain ⟨s, hs, b, e, rest, rfl⟩ := h
  exact past_punct (hstop s hs)

section Terms

/-- Units that are read as one term, whatever its text. -/
def TermReads (ls : List Lexeme) : Prop :=
  ∀ n ts rest, 2 * ls.length + 1 ≤ n → ts.map Token.lexeme = ls → Past Part.chain.goesOn rest →
    ∃ t, term n (ts ++ rest) = some (t, rest)

theorem Written.termReads (h : Written .chain ls) : TermReads ls := by
  intro n ts rest hn hts hrest
  obtain ⟨t, ht, -⟩ := h.reads ⟨""⟩ n ts rest hn hts hrest
  exact ⟨t, ht⟩

theorem Term.Proper.exists_written {t : Term} (h : t.Proper) (file : Path) :
    ∃ ls, Written .chain ls ∧ (t.lower file).render.toList = chars ls :=
  (Term.legible h).writes

/-- What is read as a term starts like one. -/
theorem startsTerm_of_term {found : Term × List Token} (h : term n ts = some found) :
    ∃ t us, ts = t :: us ∧ t.lexeme.startsTerm = true := by
  cases ts with
  | nil =>
    have hleft := term_consumes n h
    obtain ⟨t, used, hnil⟩ := hleft
    cases hnil
  | cons t us =>
    refine ⟨t, us, rfl, ?_⟩
    cases hstarts : t.lexeme.startsTerm with
    | true => rfl
    | false =>
      rw [term_eq_none hstarts] at h
      cases h

theorem TermReads.starts (h : TermReads ls) : ∃ l more, ls = l :: more ∧ l.startsTerm = true := by
  -- the units are read in front of the end of a text
  obtain ⟨t, ht⟩ := h _ (ls.map fun l => ⟨l, .start, .start⟩) [⟨.finish, .start, .start⟩] le_rfl
    (by simp [Function.comp_def]) ⟨_, [], rfl, by simp⟩
  obtain ⟨first, us, hfirst, hstarts⟩ := startsTerm_of_term ht
  cases ls with
  | nil =>
    cases hfirst
    cases hstarts
  | cons l more =>
    cases hfirst
    exact ⟨l, more, rfl, hstarts⟩

/-- An operand and further ones are a term. -/
theorem exists_term {f : Factor} (hf : factor n (us ++ (vs ++ rest)) = some (f, vs ++ rest))
    (hos : Written .operators os) (hvs : vs.map Token.lexeme = os) (hn : 2 * os.length ≤ n)
    (hrest : Past Part.chain.goesOn rest) :
    ∃ t, term (n + 1) (us ++ (vs ++ rest)) = some (t, rest) := by
  obtain ⟨more, hmore, -⟩ := hos.reads ⟨""⟩ n vs rest hn hvs hrest n (by omega)
  exact ⟨.chain ⟨beginOf (us ++ (vs ++ rest)), endOf (·.2.span.stop) more (vs ++ rest)⟩ f more, by
    simp [term, chainOf, hf, hmore]⟩

/-- A pool between parentheses is an operand, however many terms it has. -/
theorem termReads_parenthesized {k j : Nat} (hps : Written (.pool k j) ps)
    (hos : Written .operators os) :
    TermReads (.punct .opening :: (ps ++ .punct .closing :: os)) := by
  intro n ts rest hn hts hrest
  obtain ⟨b, e, us₁, rfl, hus₁⟩ := exists_token hts
  obtain ⟨us, us₂, rfl, hus, hus₂⟩ := exists_tokens hus₁
  obtain ⟨b₁, e₁, vs, rfl, hvs⟩ := exists_token hus₂
  simp only [List.length_cons, List.length_append] at hn
  obtain ⟨n, rfl⟩ : ∃ m, n = m + 2 := ⟨n - 2, by omega⟩
  have hread := hps.reads ⟨""⟩ n us (⟨.punct .closing, b₁, e₁⟩ :: (vs ++ rest))
    (by simp only [Part.bound]; omega) hus (past_punct rfl)
  obtain ⟨pool, -, htuple, -⟩ := exists_pool hread b e
  have hfactor : factor (n + 1) ((⟨.punct .opening, b, e⟩ :: us ++ [⟨.punct .closing, b₁, e₁⟩]) ++
      (vs ++ rest)) = some (.tuple ⟨b, e₁⟩ (some pool), vs ++ rest) := by
    simpa [factor_opening] using htuple
  simpa using exists_term hfactor hos hvs (by omega) hrest

/-- The word that negates in front of a pair of parentheses without terms. -/
theorem termReads_not_unit (hos : Written .operators os) :
    TermReads (.identifier "not" :: .punct .opening :: .punct .closing :: os) := by
  intro n ts rest hn hts hrest
  obtain ⟨b, e, us₁, rfl, hus₁⟩ := exists_token hts
  obtain ⟨b₁, e₁, us₂, rfl, hus₂⟩ := exists_token hus₁
  obtain ⟨b₂, e₂, vs, rfl, hvs⟩ := exists_token hus₂
  simp only [List.length_cons] at hn
  obtain ⟨n, rfl⟩ : ∃ m, n = m + 2 := ⟨n - 2, by omega⟩
  have hterm : term n (⟨.punct .closing, b₂, e₂⟩ :: (vs ++ rest)) = none := term_eq_none rfl
  have hfactor : factor (n + 1)
      ([⟨.identifier "not", b, e⟩, ⟨.punct .opening, b₁, e₁⟩, ⟨.punct .closing, b₂, e₂⟩] ++
      (vs ++ rest)) = some (.function ⟨b, e₂⟩ "not" none, vs ++ rest) := by
    rw [List.cons_append, factor_identifier]
    simp [functionOf, identifier, argumentsOf, punct, optional, poolOf, termsOf, hterm, beginOf]
  exact exists_term hfactor hos hvs (by omega) hrest

end Terms

section Left

theorem spelled_not : (Lexeme.identifier "not").Spelled :=
  have hscan : scan 'n' ['o', 't'] = (.identifier "not", ['n', 'o', 't'], []) := rfl
  spelled_of_scan rfl hscan (by simp)

/-- Units that are read as a term, and so they are behind the word that
negates if it could take them in. -/
structure LeftTerm (ls : List Lexeme) : Prop where
  reads : TermReads ls
  behindNot : ls.head? = some (.punct .minus) ∨ ls.head? = some (.punct .opening) →
    TermReads (.identifier "not" :: ls)

theorem Written.leftTerm (h : Written .chain ls) : LeftTerm ls := by
  refine ⟨h.termReads, fun hfirst => ?_⟩
  cases h with
  | chain hx hos =>
    cases hx with
    | alone hl _ =>
      simp only [List.cons_append, List.head?_cons, Option.some.injEq] at hfirst
      rcases hfirst with rfl | rfl <;> cases hl
    | unit => exact termReads_not_unit hos
    | tuple hps _ => exact (Written.chain (.call spelled_not hps) hos).termReads
    | negation hx => exact (Written.chain (.name spelled_not) (.operator rfl hx hos)).termReads
    | _ => simp at hfirst

/-- What stands behind the word that negates, a minus sign or arguments, is a term as well. -/
theorem leftTerm_of_not (h : Written .chain (.identifier "not" :: ls))
    (hfirst : ls.head? = some (.punct .minus) ∨ ls.head? = some (.punct .opening)) :
    LeftTerm ls := by
  refine ⟨?_, fun _ => h.termReads⟩
  generalize hwhole : Lexeme.identifier "not" :: ls = whole at h
  cases h with
  | chain hx hos =>
    cases hx with
    | alone hl _ =>
      obtain ⟨rfl, -⟩ := List.cons.inj hwhole
      cases hl
    | name _ =>
      obtain ⟨-, rfl⟩ := List.cons.inj hwhole
      cases hos with
      | noOperators => simp at hfirst
      | operator hs hx hos =>
        obtain rfl : _ = Punct.minus := by
          rcases hfirst with hfirst | hfirst
          · simpa using hfirst
          · obtain rfl : _ = Punct.opening := by simpa using hfirst
            cases hs
        exact (Written.chain (.negation hx) hos).termReads
    | call _ hps =>
      obtain ⟨-, rfl⟩ := List.cons.inj hwhole
      simpa using termReads_parenthesized hps hos
    | _ => cases hwhole

end Left

section Bounds

/-- The units right in front of the elements of a choice or an aggregate. -/
def Lexeme.opensElements : Lexeme → Bool
  | .keyword word => isAggregateFunction word
  | .punct s => s = .openBrace
  | _ => false

/-- What is left behind a bound, if there is one, starts no elements. -/
def Unbraced (n : Nat) (ts : List Token) : Prop :=
  ∃ t us, (optional (leftBound n) ts).2 = t :: us ∧ t.lexeme.opensElements = false

theorem Unbraced.choice (h : Unbraced n ts) : choice n ts = none := by
  obtain ⟨t, us, hleft, ht⟩ := h
  have hbrace : punct .openBrace (t :: us) = none := punct_eq_none (by
    intro he
    simp [he, Lexeme.opensElements] at ht)
  rcases hbound : optional (leftBound n) ts with ⟨bound, left⟩
  rw [hbound] at hleft
  simp only at hleft
  simp [Surface.choice, hbound, hleft, hbrace]

theorem Unbraced.aggregate {sign : Negations} (hsign : negations ts = (sign, us))
    (h : Unbraced n us) : aggregate n ts = none := by
  obtain ⟨⟨lexeme, b, e⟩, vs, hleft, ht⟩ := h
  have hfunction : keywordWith isAggregateFunction (⟨lexeme, b, e⟩ :: vs) = none := by
    cases lexeme with
    | keyword word =>
      have hword : isAggregateFunction word = false := ht
      simp [keywordWith, hword]
    | _ => rfl
  rcases hbound : optional (leftBound n) us with ⟨bound, left⟩
  rw [hbound] at hleft
  simp only at hleft
  simp [Surface.aggregate, hsign, hbound, hleft, hfunction]

theorem unbraced_of_noTerm (h : term n (t :: ts) = none) (ht : t.lexeme.opensElements = false) :
    Unbraced n (t :: ts) :=
  ⟨t, ts, by simp [optional, leftBound, h], ht⟩

theorem unbraced_of_term {x : Term} (h : term n ts = some (x, t :: rest))
    (hcompares : ∀ s, t.lexeme = .punct s → s.isComparison = false)
    (ht : t.lexeme.opensElements = false) : Unbraced n ts :=
  ⟨t, rest, by simp [optional, leftBound, h, punctWith_eq_none hcompares], ht⟩

theorem unbraced_of_comparison {x : Term} {s : Punct} {b e : Position}
    (h : term n ts = some (x, ⟨.punct s, b, e⟩ :: t :: rest)) (hs : s.isComparison = true)
    (ht : t.lexeme.opensElements = false) : Unbraced n ts :=
  ⟨t, rest, by simp [optional, leftBound, h, punctWith, hs], ht⟩

theorem opensElements_of_startsTerm (h : l.startsTerm = true) : l.opensElements = false := by
  cases l with
  | keyword word => cases word <;>
      simp_all [Lexeme.startsTerm, Lexeme.opensElements, isAggregateFunction]
  | punct s => cases s <;> simp_all [Lexeme.startsTerm, Lexeme.opensElements]
  | _ => rfl

theorem endsTerm_of_startsTerm (h : l.startsTerm = true) (hminus : l ≠ .punct .minus)
    (hopening : l ≠ .punct .opening) : l.endsTerm := by
  rintro s rfl
  rw [ne_eq, Lexeme.punct.injEq] at hminus hopening
  have hbar : s = .bar := by simpa [Lexeme.startsTerm, hminus, hopening] using h
  subst hbar
  decide

theorem unbraced_not {b e : Position} (ht : t.lexeme.endsTerm)
    (helements : t.lexeme.opensElements = false)
    (hn : 2 ≤ n) : Unbraced n (⟨.identifier "not", b, e⟩ :: t :: ts) := by
  obtain ⟨n, rfl⟩ := Nat.exists_eq_add_of_le' hn
  obtain ⟨found, hterm⟩ := term_identifier n "not" b e ts ht
  exact unbraced_of_term hterm (fun s hs => (ht s hs).2.2) helements

/-- A term with nothing behind it that starts elements, also where the word that
negates stands in front of it. -/
theorem LeftTerm.unbraced (h : LeftTerm ls) (hn : 2 * ls.length + 3 ≤ n)
    (hts : ts.map Token.lexeme = ls) (hrest : Past Part.chain.goesOn rest)
    (hleaves : ∀ us x, term n us = some (x, rest) → Unbraced n us) :
    Unbraced n (ts ++ rest) ∧ ∀ b e, Unbraced n (⟨.identifier "not", b, e⟩ :: (ts ++ rest)) := by
  refine ⟨?_, fun b e => ?_⟩
  · obtain ⟨x, hx⟩ := h.reads n ts rest (by omega) hts hrest
    exact hleaves _ x hx
  · obtain ⟨l, more, rfl, hstarts⟩ := h.reads.starts
    by_cases hfirst : l = .punct .minus ∨ l = .punct .opening
    · obtain ⟨x, hx⟩ := h.behindNot (by simpa using hfirst) n (⟨.identifier "not", b, e⟩ :: ts) rest
        (by rw [List.length_cons]; omega) (by simp [hts]) hrest
      exact hleaves _ x hx
    · rw [not_or] at hfirst
      obtain ⟨b', e', us, rfl, -⟩ := exists_token hts
      exact unbraced_not (endsTerm_of_startsTerm hstarts hfirst.1 hfirst.2)
        (opensElements_of_startsTerm hstarts) (by omega)

end Bounds

section Assertions

/-- What follows a literal: a condition, another literal or element, or the
end of all that it is part of. -/
def literalEnds : List Punct := [.colon, .comma, .semicolon, .closeBrace, .ifThen, .dot]

/-- Units that are read as an assertion with a property, and never as the bound of an aggregate. -/
def AssertionReads (P : Assertion → Prop) (ls : List Lexeme) : Prop :=
  ∀ n ts rest, 2 * ls.length + 3 ≤ n → ts.map Token.lexeme = ls → OpensWith literalEnds rest →
    (∃ a, assertion n (ts ++ rest) = some (a, rest) ∧ P a) ∧ Unbraced n (ts ++ rest) ∧
      ∀ b e, Unbraced n (⟨.identifier "not", b, e⟩ :: (ts ++ rest))

variable {P : Assertion → Prop}

theorem boolean_of_startsTerm (h : t.lexeme.startsTerm = true) : boolean (t :: ts) = none := by
  obtain ⟨lexeme, b, e⟩ := t
  cases lexeme with
  | keyword word => cases word <;> simp_all [boolean, Lexeme.startsTerm]
  | _ => rfl

theorem assertionReads_boolean {word : Keyword} (h : word = .truth ∨ word = .falsity)
    (hP : ∀ span, P (.boolean span word)) : AssertionReads P [.keyword word] := by
  intro n ts rest hn hts hrest
  obtain ⟨b, e, rfl⟩ := exists_lone_token hts
  have hends : (Lexeme.keyword word).endsTerm := by
    rintro s hs
    cases hs
  have helements : (Lexeme.keyword word).opensElements = false := by rcases h with rfl | rfl <;> rfl
  refine ⟨⟨.boolean ⟨b, e⟩ word, by simp [assertion, boolean, h], hP _⟩, ?_, fun b' e' => ?_⟩
  · exact unbraced_of_noTerm (term_eq_none (by rcases h with rfl | rfl <;> rfl)) helements
  · exact unbraced_not hends helements (by omega)

theorem LeftTerm.assertionReads {s : Punct} (ha : LeftTerm a) (hs : s.isComparison = true)
    (hb : TermReads b)
    (hP : ∀ span left right, P (.comparison span left s right)) :
    AssertionReads P (a ++ .punct s :: b) := by
  intro n ts rest hn hts hrest
  obtain ⟨us, us₁, rfl, hus, hus₁⟩ := exists_tokens hts
  obtain ⟨b', e', vs, rfl, hvs⟩ := exists_token hus₁
  simp only [List.length_append, List.length_cons] at hn
  have hpast : Past Part.chain.goesOn (⟨.punct s, b', e'⟩ :: (vs ++ rest)) :=
    past_punct (by cases s <;> simp_all [Part.goesOn, Punct.isComparison, Punct.isArithmetic])
  obtain ⟨left, hleft⟩ := ha.reads n us _ (by omega) hus hpast
  obtain ⟨right, hright⟩ := hb n vs rest (by omega) hvs (hrest.past _ (by decide))
  obtain ⟨t, more, hvs', hstarts⟩ := startsTerm_of_term hright
  obtain ⟨t', more', hts', hstarts'⟩ := startsTerm_of_term hleft
  have hsplit : us ++ ⟨.punct s, b', e'⟩ :: vs ++ rest = us ++ ⟨.punct s, b', e'⟩ ::
      (vs ++ rest) := by simp
  rw [hsplit]
  refine ⟨⟨.comparison ⟨beginOf (us ++ ⟨.punct s, b', e'⟩ :: (vs ++ rest)), right.span.stop⟩ left
    s right, ?_, hP _ _ _⟩, ?_⟩
  · have hboolean : boolean (us ++ ⟨.punct s, b', e'⟩ :: (vs ++ rest)) = none := by
      rw [hts']
      exact boolean_of_startsTerm hstarts'
    simp [assertion, hboolean, comparison, hleft, punctWith, hs, hright]
  · refine ha.unbraced (by omega) hus hpast fun ts' x hx => ?_
    rw [hvs'] at hx
    exact unbraced_of_comparison hx hs (opensElements_of_startsTerm hstarts)

end Assertions

section Atoms

variable {name : String} {k : Nat} {P : Assertion → Prop}

/-- The units of a name with a number of arguments. -/
inductive Called (name : String) : Nat → List Lexeme → Prop
  | bare : Called name 0 [.identifier name]
  | applied {k j : Nat} {ps : List Lexeme} (hps : Written (.pool k j) ps) :
      Called name k (.identifier name :: .punct .opening :: (ps ++ [.punct .closing]))

theorem Called.written (h : Called name k ls) (hname : (Lexeme.identifier name).Spelled) :
    Written .operand ls := by
  cases h with
  | bare => exact .name hname
  | applied hps => exact .call hname hps

theorem Called.starts (h : Called name k ls) : ls.head? = some (.identifier name) := by
  cases h <;> rfl

/-- The units of a sign. -/
def signUnits (negated : Bool) : List Lexeme := if negated then [.punct .minus] else []

/-- A sign in front of a name with arguments. -/
theorem Called.chain (h : Called name k ls) (hname : (Lexeme.identifier name).Spelled)
    (negated : Bool) : Written .chain (signUnits negated ++ ls) := by
  cases negated with
  | true => exact (h.written hname).single.negate
  | false => exact (h.written hname).single

/-- The arguments of a predicate that its signature counts. -/
def argumentsIn (file : Path) (pool : Option Pool) : List Node :=
  ((pool.map (Pool.lower file)).getD ([], [])).1

theorem exists_atom (name : String) (b e : Position) {negated : Bool} {pool : Option Pool}
    (harguments : (∃ stop, argumentsOf n (term n) us = some ((pool, stop), rest)) ∨
      argumentsOf n (term n) us = none ∧ pool = none ∧ us = rest)
    (hts : ts.map Token.lexeme = signUnits negated) :
    ∃ span, atom n (ts ++ ⟨.identifier name, b, e⟩ :: us) =
      some (⟨span, negated, name, pool⟩, rest) := by
  have hsign : optional (punct .minus) (ts ++ ⟨.identifier name, b, e⟩ :: us) =
      (if negated then some ((ts.head?.map Token.stop).getD .start)
        else none, ⟨.identifier name, b, e⟩ :: us) := by
    cases negated with
    | true =>
      obtain ⟨b', e', rfl⟩ := exists_lone_token hts
      simp [optional, punct]
    | false =>
      obtain rfl : ts = [] := by simpa [signUnits] using hts
      simp [optional, punct]
  rcases harguments with ⟨stop, harguments⟩ | ⟨hnone, rfl, rfl⟩
  · refine ⟨⟨beginOf (ts ++ ⟨.identifier name, b, e⟩ :: us), stop⟩, ?_⟩
    cases negated <;> simp [atom, hsign, identifier, harguments]
  · refine ⟨⟨beginOf (ts ++ ⟨.identifier name, b, e⟩ :: us), beginOf us⟩, ?_⟩
    cases negated <;> simp [atom, hsign, identifier, hnone]

theorem Called.reads {negated : Bool} (h : Called name k ls) (file : Path) (hn : 2 * ls.length ≤ n)
    (hts : ts.map Token.lexeme = signUnits negated) (hus : us.map Token.lexeme = ls)
    (hrest : Past Part.operand.goesOn rest) : ∃ span pool,
      atom n (ts ++ (us ++ rest)) = some (⟨span, negated, name, pool⟩, rest) ∧
        (argumentsIn file pool).length = k := by
  cases h with
  | bare =>
    obtain ⟨b, e, rfl⟩ := exists_lone_token hus
    have hopening : punct .opening rest = none := punct_of_past hrest rfl
    have hnone : argumentsOf n (term n) rest = none := by simp [argumentsOf, hopening]
    obtain ⟨span, hatom⟩ := exists_atom name b e (.inr ⟨hnone, rfl, rfl⟩) hts
    exact ⟨span, none, hatom, rfl⟩
  | applied hps =>
    obtain ⟨b, e, us₁, rfl, hus₁⟩ := exists_token hus
    obtain ⟨b₁, e₁, us₂, rfl, hus₂⟩ := exists_token hus₁
    obtain ⟨vs, us₃, rfl, hvs, hus₃⟩ := exists_tokens hus₂
    obtain ⟨b₂, e₂, rfl⟩ := exists_lone_token hus₃
    simp only [List.length_cons, List.length_append, List.length_nil] at hn
    have hread := hps.reads file n vs (⟨.punct .closing, b₂, e₂⟩ :: rest)
      (by simp only [Part.bound]; omega) hvs (past_punct rfl)
    obtain ⟨pool, harguments, -, hk, -⟩ := exists_pool hread b₁ e₁
    obtain ⟨span, hatom⟩ := exists_atom name b e (.inl ⟨e₂, harguments⟩) hts
    exact ⟨span, some pool, by simpa using hatom, hk⟩

/-- The units of a predicate are read as it, with as many arguments. -/
theorem Called.assertionReads (file : Path) {negated : Bool} (h : Called name k ls)
    (hname : (Lexeme.identifier name).Spelled)
    (hP : ∀ span pool, (argumentsIn file pool).length = k →
      P (.symbolic ⟨span, negated, name, pool⟩)) :
    AssertionReads P (signUnits negated ++ ls) := by
  have hterm := h.chain hname negated
  intro n ts rest hn hts hrest
  obtain ⟨x, hx⟩ := hterm.termReads n ts rest (by omega) hts (hrest.past _ (by decide))
  obtain ⟨t, more, hts', hstarts⟩ := startsTerm_of_term hx
  have hcomparison : comparison n (ts ++ rest) = none := by
    have hnone : punctWith Punct.isComparison rest = none :=
      punctWith_of_past (hrest.past Punct.isComparison (by decide)) fun _ hs => hs
    simp [comparison, hx, hnone]
  have hboolean : boolean (ts ++ rest) = none := by
    rw [hts']
    exact boolean_of_startsTerm hstarts
  refine ⟨?_, ?_⟩
  · obtain ⟨sign, us, rfl, hsign, hus⟩ := exists_tokens hts
    rw [List.length_append] at hn
    obtain ⟨span, pool, hatom, hk⟩ :=
      h.reads file (n := n) (by omega) hsign hus (hrest.past _ (by decide))
    rw [List.append_assoc] at hboolean hcomparison ⊢
    exact ⟨.symbolic ⟨span, negated, name, pool⟩, by simp [assertion, hboolean, hcomparison, hatom],
      hP span pool hk⟩
  · refine hterm.leftTerm.unbraced hn hts (hrest.past _ (by decide)) fun us y hy => ?_
    obtain ⟨s, hs, b, e, rest', rfl⟩ := hrest
    have hcompares : ∀ s ∈ literalEnds, s.isComparison = false ∧
        (Lexeme.punct s).opensElements = false := by decide
    exact unbraced_of_term hy (by rintro _ ⟨⟩; exact (hcompares s hs).1) (hcompares s hs).2

end Atoms

section Texts

variable {other : Path}

/-- A text that starts with the word that negates, with neither a minus
sign nor arguments behind it. -/
def StartsWithBareNot (cs : List Char) : Prop :=
  ['n', 'o', 't'] <+: cs ∧ ∀ c ∈ (cs.drop 3).head?, isWordChar c = false ∧ c ≠ '-' ∧ c ≠ '('

instance (cs : List Char) : Decidable (StartsWithBareNot cs) := inferInstanceAs (Decidable (_ ∧ _))

/-- Behind the word that negates, a term goes on with a minus sign,
arguments or another operator. -/
theorem Written.not_cases (h : Written .chain (.identifier "not" :: ls)) :
    (ls.head? = some (.punct .minus) ∨ ls.head? = some (.punct .opening)) ∨
      ∀ c ∈ (chars ls).head?, isWordChar c = false ∧ c ≠ '-' ∧ c ≠ '(' := by
  generalize hwhole : Lexeme.identifier "not" :: ls = whole at h
  cases h with
  | chain hx hos =>
    cases hx with
    | alone hl _ =>
      obtain ⟨rfl, -⟩ := List.cons.inj hwhole
      cases hl
    | name _ =>
      obtain ⟨-, rfl⟩ := List.cons.inj hwhole
      cases hos with
      | noOperators => simp
      | @operator s _ _ hs _ _ =>
        by_cases hminus : s = .minus
        · exact .inl (.inl (by rw [hminus]; rfl))
        · right
          cases s <;>
            first | exact absurd hs (by decide) | exact absurd rfl hminus | (rintro c ⟨⟩; decide)
    | call _ _ =>
      obtain ⟨-, rfl⟩ := List.cons.inj hwhole
      simp
    | _ => cases hwhole

/-- Assertions that start with the word that negates and are none without it. -/
def Assertion.LosesNot (file : Path) : Assertion → Prop
  | .boolean .. => False
  | .comparison _ left _ _ => StartsWithBareNot (left.lower file).render.toList
  | .symbolic atom => atom.negated = false ∧ atom.name = "not"

/-- The readings of an assertion's text: its units, and those behind the word that negates if that
may be taken for a negation. -/
structure Assertion.Reread (a : Assertion) (file : Path) (P : Assertion → Prop)
    (ls : List Lexeme) : Prop where
  text : (a.lower file).render.toList = chars ls
  cut : CutInto (chars ls) ls
  starts : ∃ l more, ls = l :: more ∧ l.startsLiteral = true
  reads : AssertionReads P ls
  behindNot : ls.head? = some (.identifier "not") → a.LosesNot file ∨
    ∃ more, ls = .identifier "not" :: more ∧ more.head? ≠ some (.identifier "not") ∧
      AssertionReads P more

theorem startsLiteral_of_startsTerm (h : l.startsTerm = true) : l.startsLiteral = true := by
  cases hl : l.startsLiteral with
  | true => rfl
  | false =>
    have hterm := startsTerm_of_not_startsLiteral (t := ⟨l, .start, .start⟩) hl
    simp only at hterm
    rw [hterm] at h
    cases h

theorem Assertion.render_comparison {span : Span} {left right : Term} {s : Punct} :
    ((Assertion.comparison span left s right).lower file).render =
      (left.lower file).render ++ (s.text ++ (right.lower file).render) := by
  have hguard : (Node.withNode { (right.span.node file .guard) with operator := some s.text } .term
      (right.lower file)).render = s.text ++ (right.lower file).render := by
    rw [render_guard rfl, textOf, node?_withNode]
    rfl
  rw [Assertion.lower, Node.render_comparison rfl]
  simp only [textOf, textsOf, node?_withSequence, reduceCtorEq, if_false, node?_withNode,
    Option.map_some, Option.getD_some, sequence_withSequence, if_true, List.map_cons, List.map_nil,
    String.intercalate_singleton]
  rw [hguard]

theorem Assertion.topAtoms_boolean {span : Span} {word : Keyword} :
    ((Assertion.boolean span word).lower file).topAtoms = [] := by
  rw [Assertion.lower, walks_topAtoms.named (by decide) (by decide)]

theorem Assertion.topAtoms_comparison {span : Span} {left right : Term} {s : Punct} :
    ((Assertion.comparison span left s right).lower file).topAtoms = [] := by
  have hguard : (Node.withNode { (right.span.node file .guard) with operator := some s.text } .term
      (right.lower file)).topAtoms = [] := by
    exact (walks_topAtoms.guard rfl (by rw [items_withNode, if_pos rfl])).trans
      (right.topAtoms_lower file)
  rw [topAtoms_of_kind (by simp [Assertion.lower])]
  simp only [Assertion.lower, kind_withSequence, kind_withNode, kind_node, NodeKind.childFields,
    List.flatMap_cons, List.flatMap_nil, items_withSequence, items_withNode, reduceCtorEq, if_true,
    if_false, List.append_nil, left.topAtoms_lower, List.nil_append]
  exact hguard

/-- What a truth value is read back as. -/
theorem Assertion.exists_reread_boolean {span : Span} {word : Keyword}
    (h : word = .truth ∨ word = .falsity) : ∃ ls, (Assertion.boolean span word).Reread file
      (fun a => (a.lower other).mentions =
        ((Assertion.boolean span word).lower file).mentions) ls := by
  have htext : "#" ++ word.name = word.text := by rcases h with rfl | rfl <;> rfl
  have hstops : nextOf Keyword.text Keyword.all word = [] := by rcases h with rfl | rfl <;> decide
  refine ⟨[.keyword word], ?_, ?_, ⟨_, [], rfl, ?_⟩, ?_, by simp⟩
  · rw [Assertion.lower, render_booleanConstant rfl]
    exact (congrArg String.toList htext).trans (List.append_nil _).symm
  · exact cutInto_of_goesOn (keyword_spelled word) fun e _ => by simp [Lexeme.goesOn, hstops]
  · rcases h with rfl | rfl <;> rfl
  · refine assertionReads_boolean h fun span' => ?_
    funext t
    rw [mentions_of_topAtoms topAtoms_boolean, mentions_of_topAtoms topAtoms_boolean]

/-- What a comparison is read back as: another comparison, perhaps of a shorter term. -/
theorem Assertion.exists_reread_comparison {span : Span} {left right : Term} {s : Punct}
    (hleft : left.Proper) (hs : s.isComparison = true) (hright : right.Proper) :
    ∃ ls, (Assertion.comparison span left s right).Reread file
      (fun a => (a.lower other).mentions =
        ((Assertion.comparison span left s right).lower file).mentions) ls := by
  obtain ⟨a, ha, hatext⟩ := hleft.exists_written file
  obtain ⟨b, hb, hbtext⟩ := hright.exists_written file
  have hcolon : s ≠ .colon := by
    rintro rfl
    cases hs
  have hsame (span' : Span) (left' right' : Term) :
      ((Assertion.comparison span' left' s right').lower other).mentions =
        ((Assertion.comparison span left s right).lower file).mentions := by
    funext t
    rw [mentions_of_topAtoms topAtoms_comparison, mentions_of_topAtoms topAtoms_comparison]
  refine ⟨a ++ .punct s :: b, ?_, ?_, ?_, ha.leftTerm.assertionReads hs hb.termReads hsame,
    fun hfirst => ?_⟩
  · rw [Assertion.render_comparison, String.toList_append, String.toList_append, hatext, hbtext,
      chars_append]
    rfl
  · exact (Leads.append ha.stands (Leads.behind hb.stands hcolon)).cut
  · obtain ⟨l, more, rfl, hl⟩ := ha.termReads.starts
    exact ⟨l, _, rfl, startsLiteral_of_startsTerm hl⟩
  · obtain ⟨l, more, rfl, -⟩ := ha.termReads.starts
    obtain rfl : l = .identifier "not" := by simpa using hfirst
    rcases ha.not_cases with hgoes | hbare
    · right
      refine ⟨more ++ .punct s :: b, rfl, ?_,
        (leftTerm_of_not ha hgoes).assertionReads hs hb.termReads hsame⟩
      obtain ⟨l', more', rfl, -⟩ := (leftTerm_of_not ha hgoes).reads.starts
      rcases hgoes with hgoes | hgoes <;> simp_all
    · left
      have hbegins : (left.lower file).render.toList = ['n', 'o', 't'] ++ chars more := hatext
      exact ⟨⟨_, hbegins.symm⟩, by rw [hbegins]; exact hbare⟩

/-- The signature of a predicate counts the arguments in its first list. -/
theorem Atom.signature?_lower (a : Atom) : (a.lower file).signature? =
    some (Symbol.signatureOf a.name (argumentsIn file a.pool).length) := by
  simp only [signature?, Symbol.ofAtom?, a.predicate?_lower, predicateArguments, a.node?_lower,
    Symbol.occurrence]
  simp [applied, argumentsIn]

theorem Atom.mentions_lower (a : Atom) (t : Trail) : (a.lower file).mentions t =
    [((t.enterKind .symbolicAtom).usage,
      some (Symbol.signatureOf a.name (argumentsIn file a.pool).length))] := by
  rw [mentions_atom a.kind_lower, a.signature?_lower]

/-- The units of a predicate. -/
theorem Atom.Proper.exists_called {a : Atom} (h : a.Proper) (file : Path) :
    ∃ ls, Called a.name (argumentsIn file a.pool).length ls ∧
      (a.lower file).render.toList = chars (signUnits a.negated ++ ls) := by
  have hrender (ls : List Lexeme) (htext : (applied file a.span a.name
      ((a.pool.map (Pool.lower file)).getD ([], []))).render.toList = chars ls) :
      (a.lower file).render.toList = chars (signUnits a.negated ++ ls) := by
    rw [render_symbolicAtom a.kind_lower, textOf, a.node?_lower, String.toList_append, chars_append]
    congr 1
    cases hneg : a.negated <;> simp [Atom.lower, hneg, signUnits] <;> rfl
  cases hpool : a.pool with
  | none =>
    refine ⟨_, .bare, hrender _ ?_⟩
    simp [hpool, render_applied, isEmpty_of_spelled h.name, Lexeme.chars]
  | some pool =>
    have hlegible : LegiblePool (pool.lower file) := Pool.legible (h.pool pool hpool)
    obtain ⟨ps, hps, htext⟩ := hlegible.exists_written
    refine ⟨_, .applied hps, hrender _ ?_⟩
    simp [hpool, toList_render_applied a.name hlegible.arguments.nonempty, htext,
      Lexeme.chars, Punct.text]

/-- What a predicate is read back as: a predicate of the same signature. -/
theorem Assertion.exists_reread_symbolic {atom : Atom} (h : atom.Proper) :
    ∃ ls, (Assertion.symbolic atom).Reread file
      (fun a => (a.lower other).mentions = ((Assertion.symbolic atom).lower file).mentions) ls := by
  obtain ⟨ls, hcalled, htext⟩ := h.exists_called file
  have hterm := hcalled.chain h.name atom.negated
  refine ⟨_, htext, hterm.stands.cut, ?_, hcalled.assertionReads other h.name ?_,
    fun hfirst => .inl ?_⟩
  · obtain ⟨l, more, hls, hl⟩ := hterm.termReads.starts
    exact ⟨l, more, hls, startsLiteral_of_startsTerm hl⟩
  · intro span pool hk
    funext t
    simp only [Assertion.lower, Atom.mentions_lower, hk]
  · cases hneg : atom.negated with
    | true => simp [hneg, signUnits] at hfirst
    | false => exact ⟨hneg, by simpa [hneg, signUnits, hcalled.starts] using hfirst⟩

theorem Assertion.exists_reread {a : Assertion} (h : a.Proper) (file other : Path) :
    ∃ ls, a.Reread file (fun a' => (a'.lower other).mentions = (a.lower file).mentions) ls := by
  cases a with
  | boolean span word => exact exists_reread_boolean h
  | comparison span left s right => exact exists_reread_comparison h.1 h.2.1 h.2.2
  | symbolic atom => exact exists_reread_symbolic h

end Texts

end AspAtlas.Surface
