import AspAtlas.Proofs.Surface.Alike
import AspAtlas.Proofs.Surface.Lexing
import AspAtlas.Proofs.Surface.Relocation
import AspAtlas.Reader.Source
/-!
Whole programs of the same units read alike: with the same statements, up to their places.
-/
namespace AspAtlas

namespace Surface

/-- Tokens of which only the end of the text is left. -/
def AtEnd (ts : List Token) : Prop := ∃ begin stop, ts = [⟨.finish, begin, stop⟩]

theorem AtEnd.inert {ts : List Token} (h : AtEnd ts) : Inert ts := by
  obtain ⟨begin, stop, rfl⟩ := h
  rintro t ht
  cases ht
  rfl

variable {α β : Type} {tail tail' ts us rest left : List Token} {k k' n m : Nat} {R : α → α → Prop}
  {f g : Reader α}

/-- A reader that takes one token, by its unit, and not the end of the text. -/
theorem Steady.of_unit_at_end (htail : AtEnd tail) (htail' : AtEnd tail')
    (hend : ∀ begin stop, f [⟨.finish, begin, stop⟩] = none)
    (hunit : ∀ t u ts us, t.lexeme = u.lexeme → (f (t :: ts) = none ∧ f (u :: us) = none) ∨
      ∃ a b, f (t :: ts) = some (a, ts) ∧ f (u :: us) = some (b, us) ∧ R a b) :
    Steady tail tail' k k' R f f := by
  obtain ⟨begin, stop, rfl⟩ := htail
  obtain ⟨begin', stop', rfl⟩ := htail'
  exact .of_unit_or_none (hend begin stop) (hend begin' stop') hunit

/-- A reader goes on alike behind what was read already. -/
theorem Steady.behind (h : Steady tail tail' (rest.length + 1) (left.length + 1) R f g)
    (hrest : Alike tail tail' rest left) (hle : rest.length ≤ ts.length)
    (hle' : left.length ≤ us.length) : Agree tail tail' R ts us (f rest) (g left) :=
  (h hrest (Nat.lt_succ_self _) (Nat.lt_succ_self _)).weaken hle hle'

section Units

variable (htail : AtEnd tail) (htail' : AtEnd tail')

include htail htail'

theorem symbol_steady (symbol : Punct) :
    Steady tail tail' k k' (fun _ _ => True) (punct symbol) (punct symbol) := by
  refine .of_unit_at_end htail htail' (fun _ _ => rfl) ?_
  intro t u ts us hlexeme
  exact punct_alike symbol ts us hlexeme

theorem keywordWith_steady (accept : Keyword → Bool) :
    Steady tail tail' k k' (· = ·) (keywordWith accept) (keywordWith accept) := by
  refine .of_unit_at_end htail htail' (fun _ _ => rfl) ?_
  rintro ⟨l, begin, stop⟩ ⟨l', begin', stop'⟩ ts us rfl
  cases l with
  | keyword word => cases h : accept word <;> simp [keywordWith, h]
  | _ => exact .inl ⟨rfl, rfl⟩

theorem keyword_steady (word : Keyword) :
    Steady tail tail' k k' (fun _ _ => True) (keyword word) (keyword word) := by
  refine .of_unit_at_end htail htail' (fun _ _ => rfl) ?_
  rintro ⟨l, begin, stop⟩ ⟨l', begin', stop'⟩ ts us rfl
  cases l with
  | keyword other => by_cases h : other = word <;> simp [keyword, h]
  | _ => exact .inl ⟨rfl, rfl⟩

theorem number_steady : Steady tail tail' k k' (· = ·) number number := by
  refine .of_unit_at_end htail htail' (fun _ _ => rfl) ?_
  rintro ⟨l, begin, stop⟩ ⟨l', begin', stop'⟩ ts us rfl
  cases l <;> simp [number]

/-- The colon in front of a condition looks at the unit behind it. -/
theorem separator_steady : Steady tail tail' k k' (fun _ _ => True) separator separator := by
  intro ts us hts hk hk'
  refine (symbol_steady htail htail' .colon hts hk hk').bind
    fun _ _ rest left _ hrest hlt hlt' => ?_
  cases hrest with
  | tail =>
    obtain ⟨begin, stop, rfl⟩ := htail
    obtain ⟨begin', stop', rfl⟩ := htail'
    exact .some trivial .tail hlt hlt'
  | @token t u ts us hlexeme hts =>
    obtain ⟨l, begin, stop⟩ := t
    obtain ⟨l', begin', stop'⟩ := u
    obtain rfl : l = l' := hlexeme
    have hnext : Alike tail tail' (⟨l, begin, stop⟩ :: ts) (⟨l, begin', stop'⟩ :: us) :=
      .token rfl hts
    by_cases hminus : l = .punct .minus
    · subst hminus
      exact .none
    · by_cases htilde : l = .stray '~'
      · subst htilde
        exact .none
      · simp only
        split
        · simp_all
        · simp_all
        · split
          · simp_all
          · simp_all
          · exact .some trivial hnext hlt hlt'

omit htail htail' in
/-- The dot behind what was read already. Of two dots one is left over, so that it may leave as many
tokens as it finds. -/
theorem endDot_agree (htail : AtEnd tail) (htail' : AtEnd tail')
    (hrest : Alike tail tail' rest left)
    (hlt : rest.length < ts.length) (hlt' : left.length < us.length) :
    Agree tail tail' (fun _ _ => True) ts us (endDot rest) (endDot left) := by
  cases hrest with
  | tail =>
    obtain ⟨begin, stop, rfl⟩ := htail
    obtain ⟨begin', stop', rfl⟩ := htail'
    exact .none
  | @token t u rest left hlexeme hrest =>
    obtain ⟨l, begin, stop⟩ := t
    obtain ⟨l', begin', stop'⟩ := u
    obtain rfl : l = l' := hlexeme
    simp only [List.length_cons] at hlt hlt'
    cases l with
    | punct s =>
      cases s with
      | dot => exact .some trivial hrest (by omega) (by omega)
      | dots => exact .some trivial (.token rfl hrest) hlt hlt'
      | _ => exact .none
    | _ => exact .none

end Units

section Lists

theorem semicolons_steady {xs ys : List α} (htail : Inert tail) (htail' : Inert tail')
    (h : Steady tail tail' k k' R f g) (hts : Alike tail tail' ts us)
    (hk : ts.length < k) (hk' : us.length < k') (hn : k ≤ n) (hm : k' ≤ m)
    (hf : semicolons n f ts = (xs, rest)) (hg : semicolons m g us = (ys, left)) :
    List.Forall₂ R xs ys ∧ Alike tail tail' rest left ∧ rest.length ≤ ts.length ∧
      left.length ≤ us.length := by
  have hread := h hts hk hk'
  simp only [semicolons] at hf hg
  generalize f ts = a, g us = b at hread hf hg
  cases hread with
  | none =>
    cases hf
    cases hg
    exact ⟨.nil, hts, Nat.le_refl _, Nat.le_refl _⟩
  | @some a b mid mid' hab hmid hlt hlt' =>
    rcases hmore : further n (· = .semicolon) f mid with ⟨more, last⟩
    rcases hmore' : further m (· = .semicolon) g mid' with ⟨more', last'⟩
    simp only [hmore, Prod.mk.injEq] at hf
    simp only [hmore', Prod.mk.injEq] at hg
    obtain ⟨rfl, rfl⟩ := hf
    obtain ⟨rfl, rfl⟩ := hg
    obtain ⟨hall, hlast, hle, hle'⟩ := further_steady htail htail' (by simp [Lexeme.isInert]) h hmid
      (by omega) (by omega) (by omega) (by omega) hmore hmore'
    exact ⟨.cons hab hall, hlast, by omega, by omega⟩

/-- Lists of which the members have one image each have one list of images. -/
theorem map_eq_of_forall₂ {F : α → β} {xs ys : List α}
    (h : List.Forall₂ (fun a b => F a = F b) xs ys) : xs.map F = ys.map F := by
  rw [← List.forall₂_eq_eq_eq, List.forall₂_map_left_iff, List.forall₂_map_right_iff]
  exact h

theorem isEmpty_eq_of_forall₂ {xs ys : List α} (h : List.Forall₂ R xs ys) :
    xs.isEmpty = ys.isEmpty := by
  cases h <;> rfl

end Lists

section Elements

variable (file : Path)

/-- Conditions of literals that lower to the same trees up to locations. -/
abbrev ConditionsAgree (xs ys : List Literal) : Prop := List.Forall₂ (LiteralsAgree file) xs ys

/-- Literals with conditions that agree. -/
def ConditionalsAgree (c d : Conditional) : Prop :=
  LiteralsAgree file c.literal d.literal ∧ ConditionsAgree file c.condition d.condition

/-- Bounds with one operator and terms that agree. -/
def BoundsAgree (b c : Bound) : Prop := b.operator = c.operator ∧ TermsAgree file b.term c.term

/-- Elements of body aggregates whose parts agree. -/
def AggregateElementsAgree (e e' : AggregateElement) : Prop :=
  Option.Rel (ListsAgree file) e.terms e'.terms ∧ ConditionsAgree file e.condition e'.condition

/-- Body aggregates that lower to the same tree up to locations. -/
def AggregatesAgree (a b : Aggregate) : Prop := (a.lower file).placeless = (b.lower file).placeless

/-- Body elements that lower to the same tree up to locations. -/
def BodyElementsAgree (e e' : BodyElement) : Prop :=
  (e.lower file).placeless = (e'.lower file).placeless

/-- Choices that lower to the same tree up to locations. -/
def ChoicesAgree (c d : Choice) : Prop := (c.lower file).placeless = (d.lower file).placeless

/-- Heads that lower to the same tree up to locations. -/
def HeadsAgree (h h' : Head) : Prop := (h.lower file).placeless = (h'.lower file).placeless

variable {file}

theorem ConditionsAgree.lower {xs ys : List Literal} (h : ConditionsAgree file xs ys) :
    (lowerCondition file xs).map Node.placeless = (lowerCondition file ys).map Node.placeless := by
  simp only [lowerCondition, List.map_map]
  exact map_eq_of_forall₂ h

theorem ConditionalsAgree.lower {c d : Conditional} (h : ConditionalsAgree file c d) :
    (c.lower file).placeless = (d.lower file).placeless := by
  have hliteral : (c.literal.lower file).placeless = (d.literal.lower file).placeless := h.1
  simp [Conditional.lower, hliteral, h.2.lower]

theorem ConditionalsAgree.lowerPlain {c d : Conditional} (h : ConditionalsAgree file c d) :
    (c.lowerPlain file).placeless = (d.lowerPlain file).placeless := by
  have hempty : c.condition.isEmpty = d.condition.isEmpty := isEmpty_eq_of_forall₂ h.2
  simp only [Conditional.lowerPlain, hempty]
  split
  · exact h.1
  · exact h.lower

theorem BoundsAgree.lower {b c : Bound} (h : BoundsAgree file b c) :
    (b.lower file).placeless = (c.lower file).placeless := by
  have hterm : (b.term.lower file).placeless = (c.term.lower file).placeless := h.2
  simp [Bound.lower, Span.node, h.1, hterm]

theorem bounds_lower {b c : Option Bound} (h : Option.Rel (BoundsAgree file) b c) :
    (b.map (Bound.lower file)).map Node.placeless =
      (c.map (Bound.lower file)).map Node.placeless := by
  cases h with
  | none => rfl
  | some h => simp [h.lower]

theorem AggregateElementsAgree.lower {e e' : AggregateElement}
    (h : AggregateElementsAgree file e e') :
    (e.lower file).placeless = (e'.lower file).placeless := by
  have hterms : ((e.terms.map (Terms.lower file)).getD []).map Node.placeless =
      ((e'.terms.map (Terms.lower file)).getD []).map Node.placeless := by
    obtain ⟨_, terms, condition⟩ := e
    obtain ⟨_, terms', condition'⟩ := e'
    obtain ⟨hterms, -⟩ := h
    cases hterms with
    | none => rfl
    | some hterms => exact hterms
  simp [AggregateElement.lower, hterms, h.2.lower]

theorem AggregatesAgree.of_parts {span span' : Span} {sign : Negations}
    {left left' right right' : Option Bound}
    {function : Keyword} {elements elements' : List AggregateElement}
    (hleft : Option.Rel (BoundsAgree file) left left')
    (helements : List.Forall₂ (AggregateElementsAgree file) elements elements')
    (hright : Option.Rel (BoundsAgree file) right right') :
    AggregatesAgree file ⟨span, sign, left, function, elements, right⟩
      ⟨span', sign, left', function, elements', right'⟩ := by
  have hall : (elements.map (AggregateElement.lower file)).map Node.placeless =
      (elements'.map (AggregateElement.lower file)).map Node.placeless := by
    simp only [List.map_map]
    exact map_eq_of_forall₂ (helements.imp fun _ _ h => h.lower)
  simp [AggregatesAgree, Aggregate.lower, Span.node, hall, bounds_lower hleft, bounds_lower hright]

theorem ChoicesAgree.of_parts {span span' : Span} {left left' right right' : Option Bound}
    {elements elements' : List Conditional} (hleft : Option.Rel (BoundsAgree file) left left')
    (helements : List.Forall₂ (ConditionalsAgree file) elements elements')
    (hright : Option.Rel (BoundsAgree file) right right') :
    ChoicesAgree file ⟨span, left, elements, right⟩ ⟨span', left', elements', right'⟩ := by
  have hall : (elements.map (Conditional.lower file)).map Node.placeless =
      (elements'.map (Conditional.lower file)).map Node.placeless := by
    simp only [List.map_map]
    exact map_eq_of_forall₂ (helements.imp fun _ _ h => h.lower)
  simp [ChoicesAgree, Choice.lower, hall, bounds_lower hleft, bounds_lower hright]

theorem HeadsAgree.of_disjunction {span span' : Span} {first first' : Conditional}
    {rest rest' : List Conditional} (hfirst : ConditionalsAgree file first first')
    (hrest : List.Forall₂ (ConditionalsAgree file) rest rest') :
    HeadsAgree file (.disjunction span first rest) (.disjunction span' first' rest') := by
  have hall : (rest.map (Conditional.lower file)).map Node.placeless =
      (rest'.map (Conditional.lower file)).map Node.placeless := by
    simp only [List.map_map]
    exact map_eq_of_forall₂ (hrest.imp fun _ _ h => h.lower)
  simp only [HeadsAgree, Head.lower, isEmpty_eq_of_forall₂ hrest, isEmpty_eq_of_forall₂ hfirst.2]
  split
  · exact hfirst.1
  · simp [hall, hfirst.lower]

variable (htail : AtEnd tail) (htail' : AtEnd tail')

include htail htail'

theorem condition_steady (hn : 2 * k ≤ n) (hm : 2 * k' ≤ m) :
    Steady tail tail' k k' (fun x y => ConditionsAgree file x.1 y.1) (condition n)
      (condition m) := by
  intro ts us hts hk hk'
  have hliteral : Steady tail tail' k k' (LiteralsAgree file) (literal n) (literal m) :=
    literal_steady htail.inert htail'.inert hn hm
  refine (separator_steady htail htail' hts hk hk').bind fun _ _ rest left _ hrest hlt hlt' => ?_
  have hfirst := hliteral hrest (by omega) (by omega)
  refine (hfirst.weaken (by omega) (by omega)).bind fun a b rest₂ left₂ hab hrest₂ hlt₂ hlt₂' => ?_
  rcases hmore : further n (· = .comma) (literal n) rest₂ with ⟨more, last⟩
  rcases hmore' : further m (· = .comma) (literal m) left₂ with ⟨more', last'⟩
  obtain ⟨hall, hlast, hle, hle'⟩ :=
    further_steady htail.inert htail'.inert (by simp [Lexeme.isInert])
      hliteral hrest₂ (by omega) (by omega) (by omega) (by omega) hmore hmore'
  simp only [hmore, hmore']
  exact .some (.cons hab hall) hlast (by omega) (by omega)

theorem condition?_steady (hn : 2 * k ≤ n) (hm : 2 * k' ≤ m) {x y : List Literal × Position}
    (hts : Alike tail tail' ts us) (hk : ts.length < k) (hk' : us.length < k')
    (hf : condition? n ts = (x, rest)) (hg : condition? m us = (y, left)) :
    ConditionsAgree file x.1 y.1 ∧ Alike tail tail' rest left ∧ rest.length ≤ ts.length ∧
      left.length ≤ us.length := by
  have hread : Agree tail tail' (fun x y => ConditionsAgree file x.1 y.1) ts us (condition n ts)
      (condition m us) := condition_steady htail htail' hn hm hts hk hk'
  simp only [condition?] at hf hg
  generalize condition n ts = a, condition m us = b at hread hf hg
  cases hread with
  | none =>
    cases hf
    cases hg
    exact ⟨.nil, hts, Nat.le_refl _, Nat.le_refl _⟩
  | some h hrest hlt hlt' =>
    cases hf
    cases hg
    exact ⟨h, hrest, Nat.le_of_lt hlt, Nat.le_of_lt hlt'⟩

theorem conditional_steady (hn : 2 * k ≤ n) (hm : 2 * k' ≤ m) :
    Steady tail tail' k k' (ConditionalsAgree file) (conditional n) (conditional m) := by
  intro ts us hts hk hk'
  have hliteral : Steady tail tail' k k' (LiteralsAgree file) (literal n) (literal m) :=
    literal_steady htail.inert htail'.inert hn hm
  refine (hliteral hts hk hk').bind fun a b rest left hab hrest hlt hlt' => ?_
  rcases hcondition : condition? n rest with ⟨⟨xs, stop⟩, last⟩
  rcases hcondition' : condition? m left with ⟨⟨ys, stop'⟩, last'⟩
  obtain ⟨hall, hlast, hle, hle'⟩ :=
    condition?_steady htail htail' hn hm hrest (by omega) (by omega) hcondition hcondition'
  simp only [hcondition, hcondition']
  exact .some ⟨hab, hall⟩ hlast (by omega) (by omega)

theorem leftBound_steady (hn : 2 * k ≤ n) (hm : 2 * k' ≤ m) :
    Steady tail tail' k k' (BoundsAgree file) (leftBound n) (leftBound m) := by
  intro ts us hts hk hk'
  have hterm : Steady tail tail' k k' (TermsAgree file) (term n) (term m) :=
    term_steady htail.inert htail'.inert hn hm
  refine (hterm hts hk hk').bind fun a b rest left hab hrest hlt hlt' => ?_
  have hoperator := punctWith_steady htail.inert htail'.inert Punct.isComparison
    (by rintro (_ | _) <;> simp [Punct.isComparison, Lexeme.isInert]) hrest (Nat.lt_succ_self _)
    (Nat.lt_succ_self _)
  simp only
  generalize punctWith Punct.isComparison rest = x, punctWith Punct.isComparison left =
    y at hoperator ⊢
  cases hoperator with
  | none => exact .some ⟨rfl, hab⟩ hrest hlt hlt'
  | some hsame hlast hle hle' =>
    subst hsame
    exact .some ⟨rfl, hab⟩ hlast (by omega) (by omega)

theorem rightBound_steady (hn : 2 * k ≤ n) (hm : 2 * k' ≤ m) :
    Steady tail tail' k k' (BoundsAgree file) (rightBound n) (rightBound m) := by
  intro ts us hts hk hk'
  have hterm : Steady tail tail' k k' (TermsAgree file) (term n) (term m) :=
    term_steady htail.inert htail'.inert hn hm
  rcases hoperator : optional (punctWith Punct.isComparison) ts with ⟨operator, rest⟩
  rcases hoperator' : optional (punctWith Punct.isComparison) us with ⟨operator', left⟩
  obtain ⟨hsame, hrest, hle, hle'⟩ := optional_steady
    (punctWith_steady htail.inert htail'.inert Punct.isComparison
      (by rintro (_ | _) <;> simp [Punct.isComparison, Lexeme.isInert])) hts (Nat.lt_succ_self _)
    (Nat.lt_succ_self _) hoperator hoperator'
  have hoperators : operator = operator' := by
    cases hsame with
    | none => rfl
    | some h => rw [h]
  simp only [rightBound, hoperator, hoperator']
  refine ((hterm hrest (by omega) (by omega)).weaken hle hle').bind
    fun a b _ _ hab hlast hlt hlt' => ?_
  exact .some ⟨hoperators, hab⟩ hlast hlt hlt'

theorem aggregateElement_steady (hn : 2 * k ≤ n) (hm : 2 * k' ≤ m) :
    Steady tail tail' k k' (AggregateElementsAgree file) (aggregateElement n)
      (aggregateElement m) := by
  intro ts us hts hk hk'
  have hterm : Steady tail tail' k k' (TermsAgree file) (term n) (term m) :=
    term_steady htail.inert htail'.inert hn hm
  have hterms := termsOf_steady htail.inert htail'.inert (n := n) (m := m) (by omega)
    (by omega) hterm hts hk hk'
  have hcondition : Agree tail tail' (fun x y => ConditionsAgree file x.1 y.1) ts us
      (condition n ts) (condition m us) := condition_steady htail htail' hn hm hts hk hk'
  simp only [aggregateElement]
  generalize termsOf n (term n) ts = x, termsOf m (term m) us = y at hterms ⊢
  cases hterms with
  | none =>
    generalize condition n ts = x, condition m us = y at hcondition ⊢
    cases hcondition with
    | none => exact .none
    | some h hrest hlt hlt' => exact .some ⟨.none, h⟩ hrest hlt hlt'
  | @some a b rest left hab hrest hlt hlt' =>
    rcases hfound : condition? n rest with ⟨⟨xs, stop⟩, last⟩
    rcases hfound' : condition? m left with ⟨⟨ys, stop'⟩, last'⟩
    obtain ⟨hall, hlast, hle, hle'⟩ :=
      condition?_steady htail htail' hn hm hrest (by omega) (by omega) hfound hfound'
    simp only [hfound, hfound']
    exact .some ⟨.some hab, hall⟩ hlast (by omega) (by omega)

theorem aggregate_steady (hn : 2 * k ≤ n) (hm : 2 * k' ≤ m) :
    Steady tail tail' k k' (AggregatesAgree file) (aggregate n) (aggregate m) := by
  intro ts us hts hk hk'
  have hleftBound : Steady tail tail' k k' (BoundsAgree file) (leftBound n) (leftBound m) :=
    leftBound_steady htail htail' hn hm
  have helement : Steady tail tail' k k' (AggregateElementsAgree file) (aggregateElement n)
      (aggregateElement m) :=
    aggregateElement_steady htail htail' hn hm
  have hrightBound : Steady tail tail' k k' (BoundsAgree file) (rightBound n) (rightBound m) :=
    rightBound_steady htail htail' hn hm
  rcases hsign : negations ts with ⟨sign, rest₁⟩
  rcases hsign' : negations us with ⟨sign', left₁⟩
  obtain ⟨rfl, hrest₁, hle₁, hle₁'⟩ := negations_steady htail.inert htail'.inert hts hsign hsign'
  rcases hbound : optional (leftBound n) rest₁ with ⟨bound, rest₂⟩
  rcases hbound' : optional (leftBound m) left₁ with ⟨bound', left₂⟩
  obtain ⟨hbounds, hrest₂, hle₂, hle₂'⟩ :=
    optional_steady hleftBound hrest₁ (by omega) (by omega) hbound hbound'
  have hfunction := keywordWith_steady htail htail' isAggregateFunction hrest₂ (Nat.lt_succ_self _)
    (Nat.lt_succ_self _)
  simp only [aggregate, hsign, hsign', hbound, hbound']
  refine (hfunction.weaken (by omega) (by omega)).bind
    fun function _ rest₃ left₃ hsame hrest₃ hlt₃ hlt₃' => ?_
  subst hsame
  refine ((symbol_steady htail htail' .openBrace).behind hrest₃ (by omega) (by omega)).bind
    fun _ _ rest₄ left₄ _ hrest₄ hlt₄ hlt₄' => ?_
  rcases helements : semicolons n (aggregateElement n) rest₄ with ⟨elements, rest₅⟩
  rcases helements' : semicolons m (aggregateElement m) left₄ with ⟨elements', left₅⟩
  obtain ⟨hall, hrest₅, hle₅, hle₅'⟩ := semicolons_steady htail.inert htail'.inert helement hrest₄
    (by omega) (by omega) (by omega) (by omega) helements helements'
  refine ((symbol_steady htail htail' .closeBrace).behind hrest₅ (by omega) (by omega)).bind
    fun _ _ rest₆ left₆ _ hrest₆ hlt₆ hlt₆' => ?_
  rcases hright : optional (rightBound n) rest₆ with ⟨right, last⟩
  rcases hright' : optional (rightBound m) left₆ with ⟨right', last'⟩
  obtain ⟨hrights, hlast, hle, hle'⟩ :=
    optional_steady hrightBound hrest₆ (by omega) (by omega) hright hright'
  exact .some (.of_parts hbounds hall hrights) hlast (Nat.lt_of_le_of_lt hle hlt₆)
    (Nat.lt_of_le_of_lt hle' hlt₆')

theorem bodyElement_steady (hn : 2 * k ≤ n) (hm : 2 * k' ≤ m) :
    Steady tail tail' k k' (BodyElementsAgree file) (bodyElement n) (bodyElement m) := by
  have haggregate : Steady tail tail' k k' (BodyElementsAgree file)
      (fun ts => (aggregate n ts).map fun x => (.aggregate x.1, x.2))
      (fun us => (aggregate m us).map fun x => (.aggregate x.1, x.2)) :=
    (aggregate_steady htail htail' hn hm).map fun _ _ h => h
  have hconditional : Steady tail tail' k k' (BodyElementsAgree file)
      (fun ts => (conditional n ts).map fun x => (.conditional x.1, x.2))
      (fun us => (conditional m us).map fun x => (.conditional x.1, x.2)) :=
    (conditional_steady htail htail' hn hm).map fun _ _ h => h.lowerPlain
  exact haggregate.or hconditional

theorem body_steady (hn : 2 * k ≤ n) (hm : 2 * k' ≤ m) :
    Steady tail tail' k k' (List.Forall₂ (BodyElementsAgree file)) (body n) (body m) := by
  intro ts us hts hk hk'
  have helement : Steady tail tail' k k' (BodyElementsAgree file) (bodyElement n) (bodyElement m) :=
    bodyElement_steady htail htail' hn hm
  refine (helement hts hk hk').bind fun a b rest left hab hrest hlt hlt' => ?_
  rcases hmore : further n (fun s => s = .comma ∨ s = .semicolon) (bodyElement n) rest with
    ⟨more, last⟩
  rcases hmore' : further m (fun s => s = .comma ∨ s = .semicolon) (bodyElement m) left with
    ⟨more', last'⟩
  have hseparator : ∀ symbol, decide (symbol = Punct.comma ∨ symbol = .semicolon) = true →
      (Lexeme.punct symbol).isInert = false := by
    simp [Lexeme.isInert]
  obtain ⟨hall, hlast, hle, hle'⟩ :=
    further_steady htail.inert htail'.inert hseparator helement hrest
      (by omega) (by omega) (by omega) (by omega) hmore hmore'
  simp only [hmore, hmore']
  exact .some (.cons hab hall) hlast (by omega) (by omega)

theorem choice_steady (hn : 2 * k ≤ n) (hm : 2 * k' ≤ m) :
    Steady tail tail' k k' (ChoicesAgree file) (choice n) (choice m) := by
  intro ts us hts hk hk'
  have hleftBound : Steady tail tail' k k' (BoundsAgree file) (leftBound n) (leftBound m) :=
    leftBound_steady htail htail' hn hm
  have helement : Steady tail tail' k k' (ConditionalsAgree file) (conditional n) (conditional m) :=
    conditional_steady htail htail' hn hm
  have hrightBound : Steady tail tail' k k' (BoundsAgree file) (rightBound n) (rightBound m) :=
    rightBound_steady htail htail' hn hm
  rcases hbound : optional (leftBound n) ts with ⟨bound, rest₁⟩
  rcases hbound' : optional (leftBound m) us with ⟨bound', left₁⟩
  obtain ⟨hbounds, hrest₁, hle₁, hle₁'⟩ := optional_steady hleftBound hts hk hk' hbound hbound'
  simp only [choice, hbound, hbound']
  refine ((symbol_steady htail htail' .openBrace).behind hrest₁ hle₁ hle₁').bind
    fun _ _ rest₂ left₂ _ hrest₂ hlt₂ hlt₂' => ?_
  rcases helements : semicolons n (conditional n) rest₂ with ⟨elements, rest₃⟩
  rcases helements' : semicolons m (conditional m) left₂ with ⟨elements', left₃⟩
  obtain ⟨hall, hrest₃, hle₃, hle₃'⟩ := semicolons_steady htail.inert htail'.inert helement hrest₂
    (by omega) (by omega) (by omega) (by omega) helements helements'
  refine ((symbol_steady htail htail' .closeBrace).behind hrest₃ (by omega) (by omega)).bind
    fun _ _ rest₄ left₄ _ hrest₄ hlt₄ hlt₄' => ?_
  rcases hright : optional (rightBound n) rest₄ with ⟨right, last⟩
  rcases hright' : optional (rightBound m) left₄ with ⟨right', last'⟩
  obtain ⟨hrights, hlast, hle, hle'⟩ :=
    optional_steady hrightBound hrest₄ (by omega) (by omega) hright hright'
  exact .some (.of_parts hbounds hall hrights) hlast (Nat.lt_of_le_of_lt hle hlt₄)
    (Nat.lt_of_le_of_lt hle' hlt₄')

theorem disjunction_steady (hn : 2 * k ≤ n) (hm : 2 * k' ≤ m) :
    Steady tail tail' k k' (HeadsAgree file) (disjunction n) (disjunction m) := by
  intro ts us hts hk hk'
  have helement : Steady tail tail' k k' (ConditionalsAgree file) (conditional n) (conditional m) :=
    conditional_steady htail htail' hn hm
  refine (helement hts hk hk').bind fun a b rest left hab hrest hlt hlt' => ?_
  rcases hmore : further n (fun s => s = .semicolon ∨ s = .bar) (conditional n) rest with
    ⟨more, last⟩
  rcases hmore' : further m (fun s => s = .semicolon ∨ s = .bar) (conditional m) left with
    ⟨more', last'⟩
  have hseparator : ∀ symbol, decide (symbol = Punct.semicolon ∨ symbol = .bar) = true →
      (Lexeme.punct symbol).isInert = false := by
    simp [Lexeme.isInert]
  obtain ⟨hall, hlast, hle, hle'⟩ :=
    further_steady htail.inert htail'.inert hseparator helement hrest
      (by omega) (by omega) (by omega) (by omega) hmore hmore'
  simp only [hmore, hmore']
  exact .some (.of_disjunction hab hall) hlast (by omega) (by omega)

theorem head_steady (hn : 2 * k ≤ n) (hm : 2 * k' ≤ m) :
    Steady tail tail' k k' (HeadsAgree file) (head n) (head m) := by
  have hchoice : Steady tail tail' k k' (HeadsAgree file)
      (fun ts => (choice n ts).map fun x => (.choice x.1, x.2))
      (fun us => (choice m us).map fun x => (.choice x.1, x.2)) :=
    (choice_steady htail htail' hn hm).map fun _ _ h => h
  exact hchoice.or (disjunction_steady htail htail' hn hm)

end Elements

/-- An item without its place. -/
def Item.placeless : Item → Item
  | .statement n => .statement n.placeless
  | .includes target _ => .includes target default

section Statements

variable (file : Path)

/-- Weights with terms that agree. -/
structure WeightsAgree (w v : Weight) : Prop where
  weight : TermsAgree file w.weight v.weight
  priority : Option.Rel (TermsAgree file) w.priority v.priority
  terms : List.Forall₂ (TermsAgree file) w.terms v.terms

/-- Elements of optimisation statements whose parts agree. -/
def OptimizeElementsAgree (e e' : OptimizeElement) : Prop :=
  WeightsAgree file e.weight e'.weight ∧ ConditionsAgree file e.condition e'.condition

/-- Statements that lower to the same items up to locations, or to one error. -/
def StatementsAgree (s t : Statement) : Prop :=
  (s.lower file).map (List.map Item.placeless) = (t.lower file).map (List.map Item.placeless)

variable {file}

theorem terms_lower {xs ys : List Term} (h : List.Forall₂ (TermsAgree file) xs ys) :
    (xs.map (Term.lower file)).map Node.placeless =
      (ys.map (Term.lower file)).map Node.placeless := by
  simp only [List.map_map]
  exact map_eq_of_forall₂ h

theorem body_lower {xs ys : List BodyElement} (h : List.Forall₂ (BodyElementsAgree file) xs ys) :
    (lowerBody file xs).map Node.placeless = (lowerBody file ys).map Node.placeless := by
  simp only [lowerBody, List.map_map]
  exact map_eq_of_forall₂ h

theorem WeightsAgree.minimized {w v : Weight} (h : WeightsAgree file w v) {span span' : Span}
    {weight weight' : Node} (hweight : weight.placeless = weight'.placeless)
    {body body' : List Node} (hbody : body.map Node.placeless = body'.map Node.placeless) :
    (minimized file span weight w body).placeless =
      (minimized file span' weight' v body').placeless := by
  have hpriority : (w.priority.map (Term.lower file)).map Node.placeless =
      (v.priority.map (Term.lower file)).map Node.placeless := by
    obtain ⟨_, _, priority, _⟩ := w
    obtain ⟨_, _, priority', _⟩ := v
    cases h.priority with
    | none => rfl
    | some hpriority => exact congrArg some hpriority
  simp only [Surface.minimized, Node.placeless_withSequence, Node.placeless_withNode?,
    Node.placeless_withNode, placeless_node, hweight, hpriority, terms_lower h.terms, hbody]

theorem OptimizeElementsAgree.lower {e e' : OptimizeElement} (h : OptimizeElementsAgree file e e')
    (maximize : Bool) : (e.lower file maximize).placeless = (e'.lower file maximize).placeless := by
  have hweight : (e.weight.weight.lower file).placeless = (e'.weight.weight.lower file).placeless :=
    h.1.weight
  simp only [OptimizeElement.lower]
  refine h.1.minimized ?_ h.2.lower
  cases maximize with
  | false => simpa using hweight
  | true => simp [hweight]

theorem statementsAgree_of_node {s t : Statement} {a b : Node}
    (hs : s.lower file = .ok [.statement a])
    (ht : t.lower file = .ok [.statement b]) (h : a.placeless = b.placeless) :
    StatementsAgree file s t := by
  simp [StatementsAgree, hs, ht, Except.map, Item.placeless, h]

theorem signatures_agree {span span' : Span} (kind : NodeKind) (name digits : String) :
    ((lowerSignature file span kind name digits).map fun node => [Item.statement node]).map
        (List.map Item.placeless) =
      ((lowerSignature file span' kind name digits).map fun node => [Item.statement node]).map
        (List.map Item.placeless) := by
  simp only [lowerSignature]
  split
  · simp [Except.map, Item.placeless, Node.placeless_withArity]
  · rfl

theorem external_agree {span span' : Span} {atom atom' : Atom} {condition condition' : List Literal}
    {type type' : Option Term} (hatom : AtomsAgree file atom atom')
    (hcondition : ConditionsAgree file condition condition')
    (htype : Option.Rel (TermsAgree file) type type') :
    StatementsAgree file (.external span atom condition type)
      (.external span' atom' condition' type') := by
  have hname : (type.map fun t => (t.lower file).render) =
      type'.map fun t => (t.lower file).render := by
    cases htype with
    | none => rfl
    | some h =>
      rw [Option.map_some, Option.map_some, ← Node.render_placeless, h, Node.render_placeless]
  have hsame : (atom.lower file).placeless = (atom'.lower file).placeless := hatom
  refine statementsAgree_of_node rfl rfl ?_
  simp [Node.placeless_withName, hname, hsame, hcondition.lower]

theorem rule_agree {span span' : Span} {head head' : Option Head} {body body' : List BodyElement}
    (hhead : Option.Rel (HeadsAgree file) head head')
    (hbody : List.Forall₂ (BodyElementsAgree file) body body') :
    StatementsAgree file (.rule span head body) (.rule span' head' body') := by
  cases hhead with
  | none => exact statementsAgree_of_node rfl rfl (by simp [body_lower hbody])
  | @some h h' hhead =>
    have hsame : (h.lower file).placeless = (h'.lower file).placeless := hhead
    exact statementsAgree_of_node rfl rfl (by simp [body_lower hbody, hsame])

variable (htail : AtEnd tail) (htail' : AtEnd tail')

include htail htail'

theorem includeStatement_steady :
    Steady tail tail' k k' (StatementsAgree file) includeStatement includeStatement := by
  intro ts us hts hk hk'
  refine (keyword_steady htail htail' .includes hts hk hk').bind
    fun _ _ rest left _ hrest hlt hlt' => ?_
  cases hrest with
  | tail =>
    obtain ⟨begin, stop, rfl⟩ := htail
    obtain ⟨begin', stop', rfl⟩ := htail'
    exact .none
  | @token t u rest left hlexeme hrest =>
    obtain ⟨l, begin, stop⟩ := t
    obtain ⟨l', begin', stop'⟩ := u
    obtain rfl : l = l' := hlexeme
    simp only [List.length_cons] at hlt hlt'
    cases l with
    | quoted target =>
      refine (endDot_agree htail htail' hrest (by omega) (by omega)).bind
        fun _ _ _ _ _ hlast hlt hlt' => ?_
      exact .some rfl hlast hlt hlt'
    | _ => exact .none

theorem bracketedName_steady :
    Steady tail tail' k k' (fun _ _ => True) bracketedName bracketedName := by
  intro ts us hts hk hk'
  refine (symbol_steady htail htail' .openBracket hts hk hk').bind
    fun _ _ rest left _ hrest hlt hlt' => ?_
  refine ((identifier_steady htail.inert htail'.inert).behind hrest (by omega) (by omega)).bind
    fun _ _ rest₂ left₂ _ hrest₂ hlt₂ hlt₂' => ?_
  exact (symbol_steady htail htail' .closeBracket).behind hrest₂ (by omega) (by omega)

theorem bracketedTerm_steady (hn : 2 * k ≤ n) (hm : 2 * k' ≤ m) :
    Steady tail tail' k k' (fun x y => TermsAgree file x.1 y.1) (bracketedTerm n)
      (bracketedTerm m) := by
  intro ts us hts hk hk'
  have hterm : Steady tail tail' k k' (TermsAgree file) (term n) (term m) :=
    term_steady htail.inert htail'.inert hn hm
  refine (symbol_steady htail htail' .openBracket hts hk hk').bind
    fun _ _ rest left _ hrest hlt hlt' => ?_
  have hinner := hterm hrest (by omega) (by omega)
  refine (hinner.weaken (by omega) (by omega)).bind fun a b rest₂ left₂ hab hrest₂ hlt₂ hlt₂' => ?_
  refine ((symbol_steady htail htail' .closeBracket).behind hrest₂ (by omega) (by omega)).bind
    fun _ _ _ _ _ hlast hlt₃ hlt₃' => ?_
  exact .some hab hlast hlt₃ hlt₃'

theorem constantStatement_steady (hn : 2 * k ≤ n) (hm : 2 * k' ≤ m) :
    Steady tail tail' k k' (StatementsAgree file) (constantStatement n) (constantStatement m) := by
  intro ts us hts hk hk'
  have hterm : Steady tail tail' k k' (TermsAgree file) (term n) (term m) :=
    term_steady htail.inert htail'.inert hn hm
  refine (keyword_steady htail htail' .const hts hk hk').bind
    fun _ _ rest₁ left₁ _ hrest₁ hlt₁ hlt₁' => ?_
  refine ((identifier_steady htail.inert htail'.inert).behind hrest₁ (by omega) (by omega)).bind
    fun name _ rest₂ left₂ hsame hrest₂ hlt₂ hlt₂' => ?_
  subst hsame
  refine ((symbol_steady htail htail' .equal).behind hrest₂ (by omega) (by omega)).bind
    fun _ _ rest₃ left₃ _ hrest₃ hlt₃ hlt₃' => ?_
  have hvalue := hterm hrest₃ (by omega) (by omega)
  refine (hvalue.weaken (by omega) (by omega)).bind fun a b rest₄ left₄ hab hrest₄ hlt₄ hlt₄' => ?_
  refine (endDot_agree htail htail' hrest₄ hlt₄ hlt₄').bind fun _ _ rest left _ hrest hlt hlt' => ?_
  have hvalues : (a.lower file).placeless = (b.lower file).placeless := hab
  have hagree (span span' : Span) :
      StatementsAgree file (.constant span name a) (.constant span' name b) :=
    statementsAgree_of_node rfl rfl (by simp [hvalues])
  have hmode := bracketedName_steady htail htail' hrest (Nat.lt_succ_self _) (Nat.lt_succ_self _)
  simp only
  generalize bracketedName rest = x, bracketedName left = y at hmode ⊢
  cases hmode with
  | none => exact .some (hagree _ _) hrest hlt hlt'
  | some _ hlast hle hle' => exact .some (hagree _ _) hlast (by omega) (by omega)

theorem signature_steady : Steady tail tail' k k' (fun x y => x.1 = y.1 ∧ x.2.1 = y.2.1)
    signature signature := by
  intro ts us hts hk hk'
  refine (identifier_steady htail.inert htail'.inert hts hk hk').bind
    fun name _ rest₁ left₁ hname hrest₁ hlt₁ hlt₁' => ?_
  refine ((symbol_steady htail htail' .slash).behind hrest₁ (by omega) (by omega)).bind
    fun _ _ rest₂ left₂ _ hrest₂ hlt₂ hlt₂' => ?_
  refine ((number_steady htail htail').behind hrest₂ (by omega) (by omega)).bind
    fun digits _ rest₃ left₃ hdigits hrest₃ hlt₃ hlt₃' => ?_
  refine (endDot_agree htail htail' hrest₃ hlt₃ hlt₃').bind fun _ _ _ _ _ hlast hlt hlt' => ?_
  exact .some ⟨hname, hdigits⟩ hlast hlt hlt'

theorem signatureStatement_steady (word : Keyword) (make : Span → String → String → Statement)
    (hmake : ∀ span span' name digits,
      StatementsAgree file (make span name digits) (make span' name digits)) :
    Steady tail tail' k k' (StatementsAgree file) (signatureStatement word make)
      (signatureStatement word make) := by
  intro ts us hts hk hk'
  refine (keyword_steady htail htail' word hts hk hk').bind fun _ _ rest left _ hrest hlt hlt' => ?_
  refine ((signature_steady htail htail').behind hrest (by omega) (by omega)).bind
    fun a b _ _ hab hlast hlt₂ hlt₂' => ?_
  obtain ⟨name, digits, stop⟩ := a
  obtain ⟨_, _, stop'⟩ := b
  obtain ⟨rfl, rfl⟩ := hab
  exact .some (hmake _ _ name digits) hlast hlt₂ hlt₂'

theorem showAllStatement_steady :
    Steady tail tail' k k' (StatementsAgree file) showAllStatement showAllStatement := by
  intro ts us hts hk hk'
  refine (keyword_steady htail htail' .shows hts hk hk').bind
    fun _ _ rest left _ hrest hlt hlt' => ?_
  refine (endDot_agree htail htail' hrest hlt hlt').bind fun _ _ _ _ _ hlast hlt₂ hlt₂' => ?_
  refine .some (statementsAgree_of_node rfl rfl ?_) hlast hlt₂ hlt₂'
  simp [Node.placeless_withArity]

theorem separatedBody_steady (hn : 2 * k ≤ n) (hm : 2 * k' ≤ m) :
    Steady tail tail' k k' (List.Forall₂ (BodyElementsAgree file)) (separatedBody n)
      (separatedBody m) := by
  intro ts us hts hk hk'
  refine (separator_steady htail htail' hts hk hk').bind fun _ _ rest left _ hrest hlt hlt' => ?_
  have hbody : Steady tail tail' k k' (List.Forall₂ (BodyElementsAgree file)) (body n) (body m) :=
    body_steady htail htail' hn hm
  exact (hbody hrest (by omega) (by omega)).weaken (by omega) (by omega)

omit htail htail' in
/-- A body that is missing is an empty one. -/
theorem body_getD {x y : Option (List BodyElement)}
    (h : Option.Rel (List.Forall₂ (BodyElementsAgree file)) x y) :
    List.Forall₂ (BodyElementsAgree file) (x.getD []) (y.getD []) := by
  cases h with
  | none => exact .nil
  | some h => exact h

theorem showTermStatement_steady (hn : 2 * k ≤ n) (hm : 2 * k' ≤ m) :
    Steady tail tail' k k' (StatementsAgree file) (showTermStatement n) (showTermStatement m) := by
  intro ts us hts hk hk'
  have hterm : Steady tail tail' k k' (TermsAgree file) (term n) (term m) :=
    term_steady htail.inert htail'.inert hn hm
  have hseparated : Steady tail tail' k k' (List.Forall₂ (BodyElementsAgree file)) (separatedBody n)
      (separatedBody m) :=
    separatedBody_steady htail htail' hn hm
  refine (keyword_steady htail htail' .shows hts hk hk').bind
    fun _ _ rest₁ left₁ _ hrest₁ hlt₁ hlt₁' => ?_
  have hshown := hterm hrest₁ (by omega) (by omega)
  refine (hshown.weaken (by omega) (by omega)).bind fun a b rest₂ left₂ hab hrest₂ hlt₂ hlt₂' => ?_
  rcases hbody : optional (separatedBody n) rest₂ with ⟨body, rest₃⟩
  rcases hbody' : optional (separatedBody m) left₂ with ⟨body', left₃⟩
  obtain ⟨hbodies, hrest₃, hle, hle'⟩ :=
    optional_steady hseparated hrest₂ (by omega) (by omega) hbody hbody'
  simp only [hbody, hbody']
  refine (endDot_agree htail htail' hrest₃ (by omega) (by omega)).bind
    fun _ _ _ _ _ hlast hlt hlt' => ?_
  have hterms : (a.lower file).placeless = (b.lower file).placeless := hab
  refine .some (statementsAgree_of_node rfl rfl ?_) hlast hlt hlt'
  simp [hterms, body_lower (body_getD hbodies)]

theorem parameterNames_steady (hn : k ≤ n) (hm : k' ≤ m) :
    Steady tail tail' k k' (fun _ _ => True) (parameterNames n) (parameterNames m) := by
  intro ts us hts hk hk'
  refine (symbol_steady htail htail' .opening hts hk hk').bind
    fun _ _ rest left _ hrest hlt hlt' => ?_
  have hidentifier : Steady tail tail' k k' (· = ·) identifier identifier :=
    identifier_steady htail.inert htail'.inert
  have hname := hidentifier hrest (by omega) (by omega)
  simp only
  generalize identifier rest = x, identifier left = y at hname ⊢
  cases hname with
  | none =>
    refine ((symbol_steady htail htail' .closing).behind hrest (by omega) (by omega)).bind
      fun _ _ _ _ _ hlast hlt₂ hlt₂' => ?_
    exact .some trivial hlast hlt₂ hlt₂'
  | @some _ _ rest₂ left₂ _ hrest₂ hlt₂ hlt₂' =>
    rcases hmore : further n (· = .comma) identifier rest₂ with ⟨more, rest₃⟩
    rcases hmore' : further m (· = .comma) identifier left₂ with ⟨more', left₃⟩
    obtain ⟨-, hrest₃, hle, hle'⟩ :=
      further_steady htail.inert htail'.inert (by simp [Lexeme.isInert])
        hidentifier hrest₂ (by omega) (by omega) (by omega) (by omega) hmore hmore'
    simp only [hmore, hmore']
    refine ((symbol_steady htail htail' .closing).behind hrest₃ (by omega) (by omega)).bind
      fun _ _ _ _ _ hlast hlt₄ hlt₄' => ?_
    exact .some trivial hlast hlt₄ hlt₄'

theorem programStatement_steady (hn : k ≤ n) (hm : k' ≤ m) :
    Steady tail tail' k k' (StatementsAgree file) (programStatement n) (programStatement m) := by
  intro ts us hts hk hk'
  refine (keyword_steady htail htail' .program hts hk hk').bind
    fun _ _ rest₁ left₁ _ hrest₁ hlt₁ hlt₁' => ?_
  refine ((identifier_steady htail.inert htail'.inert).behind hrest₁ (by omega) (by omega)).bind
    fun name _ rest₂ left₂ hsame hrest₂ hlt₂ hlt₂' => ?_
  subst hsame
  rcases hnames : optional (parameterNames n) rest₂ with ⟨names, rest₃⟩
  rcases hnames' : optional (parameterNames m) left₂ with ⟨names', left₃⟩
  obtain ⟨-, hrest₃, hle, hle'⟩ := optional_steady (parameterNames_steady htail htail' hn hm) hrest₂
    (by omega) (by omega) hnames hnames'
  simp only [hnames, hnames']
  refine (endDot_agree htail htail' hrest₃ (by omega) (by omega)).bind
    fun _ _ _ _ _ hlast hlt hlt' => ?_
  exact .some (statementsAgree_of_node rfl rfl (by simp)) hlast hlt hlt'

theorem externalStatement_steady (hn : 2 * k ≤ n) (hm : 2 * k' ≤ m) :
    Steady tail tail' k k' (StatementsAgree file) (externalStatement n) (externalStatement m) := by
  intro ts us hts hk hk'
  have hatom : Steady tail tail' k k' (AtomsAgree file) (atom n) (atom m) :=
    atom_steady htail.inert htail'.inert hn hm
  refine (keyword_steady htail htail' .external hts hk hk').bind
    fun _ _ rest₁ left₁ _ hrest₁ hlt₁ hlt₁' => ?_
  have hfound := hatom hrest₁ (by omega) (by omega)
  refine (hfound.weaken (by omega) (by omega)).bind fun a b rest₂ left₂ hab hrest₂ hlt₂ hlt₂' => ?_
  rcases hcondition : condition? n rest₂ with ⟨⟨xs, stop⟩, rest₃⟩
  rcases hcondition' : condition? m left₂ with ⟨⟨ys, stop'⟩, left₃⟩
  obtain ⟨hall, hrest₃, hle, hle'⟩ :=
    condition?_steady htail htail' hn hm hrest₂ (by omega) (by omega) hcondition hcondition'
  simp only [hcondition, hcondition']
  refine (endDot_agree htail htail' hrest₃ (by omega) (by omega)).bind
    fun _ _ rest left _ hrest hlt hlt' => ?_
  have htype : Agree tail tail' (fun x y => TermsAgree file x.1 y.1) rest left
      (bracketedTerm n rest)
      (bracketedTerm m left) := bracketedTerm_steady htail htail' hn hm hrest (by omega) (by omega)
  simp only
  generalize bracketedTerm n rest = x, bracketedTerm m left = y at htype ⊢
  cases htype with
  | none => exact .some (external_agree hab hall .none) hrest hlt hlt'
  | some htypes hlast hle₂ hle₂' =>
    exact .some (external_agree hab hall (.some htypes)) hlast (by omega) (by omega)

theorem priority_steady (hn : 2 * k ≤ n) (hm : 2 * k' ≤ m) :
    Steady tail tail' k k' (TermsAgree file) (priority n) (priority m) := by
  intro ts us hts hk hk'
  have hterm : Steady tail tail' k k' (TermsAgree file) (term n) (term m) :=
    term_steady htail.inert htail'.inert hn hm
  refine (symbol_steady htail htail' .atSign hts hk hk').bind
    fun _ _ rest left _ hrest hlt hlt' => ?_
  exact (hterm hrest (by omega) (by omega)).weaken (by omega) (by omega)

theorem weight_steady (hn : 2 * k ≤ n) (hm : 2 * k' ≤ m) :
    Steady tail tail' k k' (WeightsAgree file) (weight n) (weight m) := by
  intro ts us hts hk hk'
  have hterm : Steady tail tail' k k' (TermsAgree file) (term n) (term m) :=
    term_steady htail.inert htail'.inert hn hm
  have hlevel : Steady tail tail' k k' (TermsAgree file) (priority n) (priority m) :=
    priority_steady htail htail' hn hm
  refine (hterm hts hk hk').bind fun a b rest₁ left₁ hab hrest₁ hlt₁ hlt₁' => ?_
  rcases hpriority : optional (priority n) rest₁ with ⟨level, rest₂⟩
  rcases hpriority' : optional (priority m) left₁ with ⟨level', left₂⟩
  obtain ⟨hlevels, hrest₂, hle, hle'⟩ :=
    optional_steady hlevel hrest₁ (by omega) (by omega) hpriority hpriority'
  rcases hmore : further n (· = .comma) (term n) rest₂ with ⟨more, last⟩
  rcases hmore' : further m (· = .comma) (term m) left₂ with ⟨more', last'⟩
  obtain ⟨hall, hlast, hle₂, hle₂'⟩ :=
    further_steady htail.inert htail'.inert (by simp [Lexeme.isInert])
      hterm hrest₂ (by omega) (by omega) (by omega) (by omega) hmore hmore'
  simp only [hpriority, hpriority', hmore, hmore']
  exact .some ⟨hab, hlevels, hall⟩ hlast (by omega) (by omega)

theorem optimizeElement_steady (hn : 2 * k ≤ n) (hm : 2 * k' ≤ m) :
    Steady tail tail' k k' (OptimizeElementsAgree file) (optimizeElement n)
      (optimizeElement m) := by
  intro ts us hts hk hk'
  have hweight : Steady tail tail' k k' (WeightsAgree file) (weight n) (weight m) :=
    weight_steady htail htail' hn hm
  refine (hweight hts hk hk').bind fun a b rest left hab hrest hlt hlt' => ?_
  rcases hcondition : condition? n rest with ⟨⟨xs, stop⟩, last⟩
  rcases hcondition' : condition? m left with ⟨⟨ys, stop'⟩, last'⟩
  obtain ⟨hall, hlast, hle, hle'⟩ :=
    condition?_steady htail htail' hn hm hrest (by omega) (by omega) hcondition hcondition'
  simp only [hcondition, hcondition']
  exact .some ⟨hab, hall⟩ hlast (by omega) (by omega)

theorem optimizeStatement_steady (hn : 2 * k ≤ n) (hm : 2 * k' ≤ m) :
    Steady tail tail' k k' (StatementsAgree file) (optimizeStatement n) (optimizeStatement m) := by
  intro ts us hts hk hk'
  have helement : Steady tail tail' k k' (OptimizeElementsAgree file) (optimizeElement n)
      (optimizeElement m) :=
    optimizeElement_steady htail htail' hn hm
  refine (keywordWith_steady htail htail' (fun k => k = .minimize ∨ k = .maximize) hts hk hk').bind
    fun word _ rest₁ left₁ hsame hrest₁ hlt₁ hlt₁' => ?_
  subst hsame
  refine ((symbol_steady htail htail' .openBrace).behind hrest₁ (by omega) (by omega)).bind
    fun _ _ rest₂ left₂ _ hrest₂ hlt₂ hlt₂' => ?_
  rcases helements : semicolons n (optimizeElement n) rest₂ with ⟨elements, rest₃⟩
  rcases helements' : semicolons m (optimizeElement m) left₂ with ⟨elements', left₃⟩
  obtain ⟨hall, hrest₃, hle, hle'⟩ := semicolons_steady htail.inert htail'.inert helement hrest₂
    (by omega) (by omega) (by omega) (by omega) helements helements'
  simp only [helements, helements']
  refine ((symbol_steady htail htail' .closeBrace).behind hrest₃ (by omega) (by omega)).bind
    fun _ _ rest₄ left₄ _ hrest₄ hlt₄ hlt₄' => ?_
  refine (endDot_agree htail htail' hrest₄ hlt₄ hlt₄').bind fun _ _ _ _ _ hlast hlt hlt' => ?_
  refine .some ?_ hlast hlt hlt'
  have hitems : List.map (Node.placeless ∘ OptimizeElement.lower file (word = .maximize)) elements =
      List.map (Node.placeless ∘ OptimizeElement.lower file (word = .maximize)) elements' :=
    map_eq_of_forall₂ (hall.imp fun _ _ h => h.lower _)
  have hstatements := congrArg (List.map Item.statement) hitems
  simp only [List.map_map] at hstatements
  simp only [StatementsAgree, Statement.lower, Except.map, List.map_map]
  exact congrArg Except.ok hstatements

theorem weakStatement_steady (hn : 2 * k ≤ n) (hm : 2 * k' ≤ m) :
    Steady tail tail' k k' (StatementsAgree file) (weakStatement n) (weakStatement m) := by
  intro ts us hts hk hk'
  have hbody : Steady tail tail' k k' (List.Forall₂ (BodyElementsAgree file)) (body n) (body m) :=
    body_steady htail htail' hn hm
  have hweight : Steady tail tail' k k' (WeightsAgree file) (weight n) (weight m) :=
    weight_steady htail htail' hn hm
  refine (symbol_steady htail htail' .weakIf hts hk hk').bind
    fun _ _ rest₁ left₁ _ hrest₁ hlt₁ hlt₁' => ?_
  have hfound := hbody hrest₁ (by omega) (by omega)
  refine (hfound.weaken (by omega) (by omega)).bind
    fun xs ys rest₂ left₂ hbodies hrest₂ hlt₂ hlt₂' => ?_
  refine (endDot_agree htail htail' hrest₂ hlt₂ hlt₂').bind
    fun _ _ rest₃ left₃ _ hrest₃ hlt₃ hlt₃' => ?_
  refine ((symbol_steady htail htail' .openBracket).behind hrest₃ (by omega) (by omega)).bind
    fun _ _ rest₄ left₄ _ hrest₄ hlt₄ hlt₄' => ?_
  have hspec := hweight hrest₄ (by omega) (by omega)
  refine (hspec.weaken (by omega) (by omega)).bind fun a b rest₅ left₅ hab hrest₅ hlt₅ hlt₅' => ?_
  refine ((symbol_steady htail htail' .closeBracket).behind hrest₅ (by omega) (by omega)).bind
    fun _ _ _ _ _ hlast hlt hlt' => ?_
  refine .some (statementsAgree_of_node rfl rfl ?_) hlast hlt hlt'
  exact hab.minimized hab.weight (body_lower hbodies)

theorem arrowBody_steady (hn : 2 * k ≤ n) (hm : 2 * k' ≤ m) :
    Steady tail tail' k k' (List.Forall₂ (BodyElementsAgree file)) (arrowBody n) (arrowBody m) := by
  intro ts us hts hk hk'
  have hread : Steady tail tail' k k' (List.Forall₂ (BodyElementsAgree file)) (body n) (body m) :=
    body_steady htail htail' hn hm
  refine (symbol_steady htail htail' .ifThen hts hk hk').bind
    fun _ _ rest left _ hrest hlt hlt' => ?_
  rcases hbody : optional (body n) rest with ⟨xs, last⟩
  rcases hbody' : optional (body m) left with ⟨ys, last'⟩
  obtain ⟨hbodies, hlast, hle, hle'⟩ := optional_steady hread hrest
    (by omega) (by omega) hbody hbody'
  simp only [hbody, hbody']
  exact .some (body_getD hbodies) hlast (by omega) (by omega)

theorem headedRule_steady (hn : 2 * k ≤ n) (hm : 2 * k' ≤ m) :
    Steady tail tail' k k' (StatementsAgree file) (headedRule n) (headedRule m) := by
  intro ts us hts hk hk'
  have hhead : Steady tail tail' k k' (HeadsAgree file) (head n) (head m) :=
    head_steady htail htail' hn hm
  have harrow : Steady tail tail' k k' (List.Forall₂ (BodyElementsAgree file)) (arrowBody n)
      (arrowBody m) :=
    arrowBody_steady htail htail' hn hm
  refine (hhead hts hk hk').bind fun a b rest₁ left₁ hab hrest₁ hlt₁ hlt₁' => ?_
  rcases hbody : optional (arrowBody n) rest₁ with ⟨xs, rest₂⟩
  rcases hbody' : optional (arrowBody m) left₁ with ⟨ys, left₂⟩
  obtain ⟨hbodies, hrest₂, hle, hle'⟩ :=
    optional_steady harrow hrest₁ (by omega) (by omega) hbody hbody'
  simp only [hbody, hbody']
  refine (endDot_agree htail htail' hrest₂ (by omega) (by omega)).bind
    fun _ _ _ _ _ hlast hlt hlt' => ?_
  exact .some (rule_agree (.some hab) (body_getD hbodies)) hlast hlt hlt'

theorem constraintRule_steady (hn : 2 * k ≤ n) (hm : 2 * k' ≤ m) :
    Steady tail tail' k k' (StatementsAgree file) (constraintRule n) (constraintRule m) := by
  intro ts us hts hk hk'
  have hbody : Steady tail tail' k k' (List.Forall₂ (BodyElementsAgree file)) (arrowBody n)
      (arrowBody m) :=
    arrowBody_steady htail htail' hn hm
  refine (hbody hts hk hk').bind fun xs ys rest left hbodies hrest hlt hlt' => ?_
  refine (endDot_agree htail htail' hrest hlt hlt').bind fun _ _ _ _ _ hlast hlt₂ hlt₂' => ?_
  exact .some (rule_agree .none hbodies) hlast hlt₂ hlt₂'

theorem statement_steady (hn : 2 * k ≤ n) (hm : 2 * k' ≤ m) :
    Steady tail tail' k k' (StatementsAgree file) (statement n) (statement m) :=
  (includeStatement_steady htail htail').or <| (constantStatement_steady htail htail' hn hm).or <|
    (signatureStatement_steady htail htail' .defined .defined
      fun _ _ => signatures_agree .defined).or <|
    (showAllStatement_steady htail htail').or <|
    (signatureStatement_steady htail htail' .shows .showSignature
      fun _ _ => signatures_agree .showSignature).or <|
    (showTermStatement_steady htail htail' hn hm).or <|
    (programStatement_steady htail htail' (by omega) (by omega)).or <|
    (externalStatement_steady htail htail' hn hm).or <|
    (optimizeStatement_steady htail htail' hn hm).or <|
    (weakStatement_steady htail htail' hn hm).or <| (headedRule_steady htail htail' hn hm).or <|
    constraintRule_steady htail htail' hn hm

end Statements

section Programs

variable {file : Path} {statements statements' done done' : List Statement}

/-- Tokens of whole texts with the same units are alike up to the end of the text. -/
theorem Finished.alike (hts : Finished ts) (hus : Finished us)
    (h : us.map Token.lexeme = ts.map Token.lexeme) :
    ∃ tail tail', AtEnd tail ∧ AtEnd tail' ∧ Alike tail tail' ts us := by
  induction hts generalizing us with
  | @last t ht =>
    obtain ⟨l, begin, stop⟩ := t
    obtain rfl : l = .finish := ht
    cases hus with
    | @last u hu =>
      obtain ⟨l', begin', stop'⟩ := u
      obtain rfl : l' = .finish := hu
      exact ⟨_, _, ⟨begin, stop, rfl⟩, ⟨begin', stop', rfl⟩, .tail⟩
    | cons hu hus => exact absurd (List.cons.inj h).1 hu
  | cons ht hts ih =>
    cases hus with
    | last hu => exact absurd ((List.cons.inj h).1.symm.trans hu) ht
    | cons hu hus =>
      obtain ⟨hlexeme, hmore⟩ := List.cons.inj h
      obtain ⟨tail, tail', htail, htail', hrest⟩ := ih hus hmore
      exact ⟨tail, tail', htail, htail', .token hlexeme.symm hrest⟩

/-- Statements are read alike up to the end of the text, each from fewer
tokens than the one before. -/
theorem statementsFrom_agree (htail : AtEnd tail) (htail' : AtEnd tail') {j j' : Nat}
    (hts : Alike tail tail' ts us) (hn : 2 * (ts.length + 1) ≤ n) (hm : 2 * (us.length + 1) ≤ m)
    (hj : ts.length < j) (hj' : us.length < j')
    (hdone : List.Forall₂ (StatementsAgree file) done done') :
    Option.Rel (List.Forall₂ (StatementsAgree file)) (statementsFrom n j ts done)
      (statementsFrom m j' us done') := by
  induction j generalizing j' ts us done done' with
  | zero => exact absurd hj (Nat.not_lt_zero _)
  | succ j ih =>
  obtain ⟨j', rfl⟩ := Nat.exists_eq_add_one_of_ne_zero (Nat.ne_of_gt (Nat.zero_lt_of_lt hj'))
  have hreversed : List.Forall₂ (StatementsAgree file) done.reverse done'.reverse :=
    List.forall₂_reverse_iff.mpr hdone
  have hread : Agree tail tail' (StatementsAgree file) ts us (statement n ts) (statement m us) :=
    statement_steady htail htail' hn hm hts (Nat.lt_succ_self _) (Nat.lt_succ_self _)
  cases hts with
  | tail =>
    obtain ⟨begin, stop, rfl⟩ := htail
    obtain ⟨begin', stop', rfl⟩ := htail'
    exact .some hreversed
  | @token t u ts us hlexeme hts =>
    by_cases hfinish : t.lexeme = .finish
    · obtain ⟨l, begin, stop⟩ := t
      obtain ⟨l', begin', stop'⟩ := u
      obtain rfl : l = l' := hlexeme
      obtain rfl : l = .finish := hfinish
      exact .some hreversed
    · -- one statement takes at least one token, which keeps both bounds
      rw [statementsFrom_step hfinish, statementsFrom_step (hlexeme ▸ hfinish)]
      generalize statement n (t :: ts) = x, statement m (u :: us) = y at hread
      cases hread with
      | none => exact .none
      | some hagree hrest hlt hlt' =>
        exact ih hrest (by omega) (by omega) (by omega) (by omega) (.cons hagree hdone)

/-- Whole texts of the same units have the same statements, up to their places. -/
theorem ofTokens?_agree (hts : Finished ts) (hus : Finished us)
    (h : us.map Token.lexeme = ts.map Token.lexeme) :
    Option.Rel (List.Forall₂ (StatementsAgree file)) (ofTokens? ts) (ofTokens? us) := by
  obtain ⟨tail, tail', htail, htail', halike⟩ := hts.alike hus h
  exact statementsFrom_agree htail htail' halike (Nat.le_refl _) (Nat.le_refl _)
    (Nat.lt_succ_self _) (Nat.lt_succ_self _) .nil

/-- Programs of the same statements, up to their places, have the same items. -/
theorem lowerProgram_agree (h : List.Forall₂ (StatementsAgree file) statements statements') :
    (lowerProgram file statements).map (List.map Item.placeless) =
      (lowerProgram file statements').map (List.map Item.placeless) := by
  induction h with
  | nil => rfl
  | @cons s t statements statements' hst _ ih =>
    have hfirst : (s.lower file).map (List.map Item.placeless) =
        (t.lower file).map (List.map Item.placeless) := hst
    rw [map_lowerProgram_cons, map_lowerProgram_cons, hfirst, ih]

end Programs

end Surface
end AspAtlas
