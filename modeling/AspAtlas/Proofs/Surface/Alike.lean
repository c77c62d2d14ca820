import AspAtlas.Proofs.Node.Placeless
import AspAtlas.Proofs.Surface.Refusal
import Mathlib.Data.List.Forall2
/-!
Readers look at the units of tokens and not at their places, so that texts with the same units read
alike. What stands behind a literal does not matter as long as no part of a literal looks at it.
-/
namespace AspAtlas.Surface

/-- Tokens with the same units, up to two given tails. -/
inductive Alike (tail tail' : List Token) : List Token → List Token → Prop
  | tail : Alike tail tail' tail tail'
  | token {t u : Token} {ts us : List Token} (h : t.lexeme = u.lexeme)
      (hts : Alike tail tail' ts us) : Alike tail tail' (t :: ts) (u :: us)

/-- The units that no part of a literal looks at. -/
def Lexeme.isInert : Lexeme → Bool
  | .punct symbol => symbol ∈ [Punct.dot, .closeBrace, .ifThen]
  | .finish => true
  | _ => false

/-- Tokens of which no part of a literal takes the first. -/
def Inert (ts : List Token) : Prop := ∀ t ∈ ts.head?, t.lexeme.isInert = true

/-- Two readings with alike results that leave alike tokens, or two failures. -/
inductive Agree {α : Type} (tail tail' : List Token) (R : α → α → Prop) (ts us : List Token) :
    Option (α × List Token) → Option (α × List Token) → Prop
  | none : Agree tail tail' R ts us none none
  | some {a b : α} {rest left : List Token} (h : R a b) (hrest : Alike tail tail' rest left)
      (hlt : rest.length < ts.length) (hlt' : left.length < us.length) :
      Agree tail tail' R ts us (some (a, rest)) (some (b, left))

/-- Two readers agree on alike tokens, fewer than given numbers. -/
def Steady {α : Type} (tail tail' : List Token) (k k' : Nat) (R : α → α → Prop)
    (f g : Reader α) : Prop :=
  ∀ ⦃ts us : List Token⦄, Alike tail tail' ts us → ts.length < k → us.length < k' →
    Agree tail tail' R ts us (f ts) (g us)

variable {α β : Type} {tail tail' ts us rest left : List Token} {k k' n m : Nat} {R : α → α → Prop}
  {f g : Reader α}

theorem Agree.weaken {S : β → β → Prop} {x y : Option (β × List Token)}
    (h : Agree tail tail' S rest left x y)
    (hle : rest.length ≤ ts.length) (hle' : left.length ≤ us.length) :
    Agree tail tail' S ts us x y := by
  cases h with
  | none => exact .none
  | some h hrest hlt hlt' =>
    exact .some h hrest (Nat.lt_of_lt_of_le hlt hle) (Nat.lt_of_lt_of_le hlt' hle')

/-- Readings that go on alike after alike results agree. -/
theorem Agree.bind {S : β → β → Prop} {x y : Option (α × List Token)}
    {F G : α × List Token → Option (β × List Token)} (h : Agree tail tail' R ts us x y)
    (hnext : ∀ a b rest left, R a b → Alike tail tail' rest left → rest.length < ts.length →
      left.length < us.length → Agree tail tail' S ts us (F (a, rest)) (G (b, left))) :
    Agree tail tail' S ts us (x.bind F) (y.bind G) := by
  cases h with
  | none => exact .none
  | some h hrest hlt hlt' => exact hnext _ _ _ _ h hrest hlt hlt'

theorem Steady.or {f' g' : Reader α} (h : Steady tail tail' k k' R f g)
    (hother : Steady tail tail' k k' R f' g') :
    Steady tail tail' k k' R (fun ts => f ts <|> f' ts) (fun us => g us <|> g' us) := by
  intro ts us hts hk hk'
  have hfirst := h hts hk hk'
  have hsecond := hother hts hk hk'
  simp only
  generalize f ts = x, g us = y at hfirst ⊢
  cases hfirst with
  | none => exact hsecond
  | some h hrest hlt hlt' => exact .some h hrest hlt hlt'

theorem Steady.map {S : β → β → Prop} {F : α → β} (h : Steady tail tail' k k' R f g)
    (hF : ∀ a b, R a b → S (F a) (F b)) :
    Steady tail tail' k k' S (fun ts => (f ts).map fun x => (F x.1, x.2))
      (fun us => (g us).map fun x => (F x.1, x.2)) := by
  intro ts us hts hk hk'
  have hread := h hts hk hk'
  simp only
  generalize f ts = x, g us = y at hread ⊢
  cases hread with
  | none => exact .none
  | some h hrest hlt hlt' => exact .some (hF _ _ h) hrest hlt hlt'

/-- A reader that takes one token, by its unit, and neither of the tails. -/
theorem Steady.of_unit_or_none (htail : f tail = none) (htail' : f tail' = none)
    (hunit : ∀ t u ts us, t.lexeme = u.lexeme → (f (t :: ts) = none ∧ f (u :: us) = none) ∨
      ∃ a b, f (t :: ts) = some (a, ts) ∧ f (u :: us) = some (b, us) ∧ R a b) :
    Steady tail tail' k k' R f f := by
  intro ts us hts hk hk'
  cases hts with
  | tail =>
    rw [htail, htail']
    exact .none
  | token hlexeme hts =>
    rename_i t u ts us
    rcases hunit t u ts us hlexeme with ⟨ht, hu⟩ | ⟨a, b, ht, hu, h⟩
    · rw [ht, hu]
      exact .none
    · rw [ht, hu]
      exact .some h hts (Nat.lt_succ_self _) (Nat.lt_succ_self _)

/-- A reader that takes one token, by its unit, and none that is inert. -/
theorem Steady.of_unit (htail : Inert tail) (htail' : Inert tail')
    (hinert : ∀ ts, Inert ts → f ts = none)
    (hunit : ∀ t u ts us, t.lexeme = u.lexeme → (f (t :: ts) = none ∧ f (u :: us) = none) ∨
      ∃ a b, f (t :: ts) = some (a, ts) ∧ f (u :: us) = some (b, us) ∧ R a b) :
    Steady tail tail' k k' R f f :=
  .of_unit_or_none (hinert _ htail) (hinert _ htail') hunit

/-- A symbol is taken or refused by its unit. -/
theorem punct_alike (symbol : Punct) {t u : Token} (ts us : List Token) (h : t.lexeme = u.lexeme) :
    (punct symbol (t :: ts) = none ∧ punct symbol (u :: us) = none) ∨
      ∃ a b, punct symbol (t :: ts) = some (a, ts) ∧
        punct symbol (u :: us) = some (b, us) ∧ True := by
  obtain ⟨l, begin, stop⟩ := t
  obtain ⟨l', begin', stop'⟩ := u
  obtain rfl : l = l' := h
  by_cases he : l = .punct symbol
  · subst he
    exact .inr ⟨stop, stop', by simp [punct], by simp [punct], trivial⟩
  · exact .inl ⟨punct_eq_none he, punct_eq_none he⟩

section Units

variable (htail : Inert tail) (htail' : Inert tail')

include htail htail'

theorem punct_steady (symbol : Punct) (h : (Lexeme.punct symbol).isInert = false) :
    Steady tail tail' k k' (fun _ _ => True) (punct symbol) (punct symbol) := by
  refine .of_unit htail htail' ?_ ?_
  · intro ts hts
    cases ts with
    | nil => rfl
    | cons t ts =>
      refine punct_eq_none fun he => ?_
      have hinert := hts t rfl
      rw [he, h] at hinert
      cases hinert
  · intro t u ts us hlexeme
    exact punct_alike symbol ts us hlexeme

theorem punctWith_steady (accept : Punct → Bool)
    (h : ∀ symbol, accept symbol = true → (Lexeme.punct symbol).isInert = false) :
    Steady tail tail' k k' (· = ·) (punctWith accept) (punctWith accept) := by
  refine .of_unit htail htail' ?_ ?_
  · intro ts hts
    unfold punctWith
    split
    · rename_i s begin stop ts
      split
      · rename_i haccept
        have hinert := hts _ rfl
        rw [h s haccept] at hinert
        cases hinert
      · rfl
    · rfl
  · rintro ⟨l, begin, stop⟩ ⟨l', begin', stop'⟩ ts us rfl
    cases l with
    | punct s => cases h : accept s <;> simp [punctWith, h]
    | _ => exact .inl ⟨rfl, rfl⟩

theorem identifier_steady : Steady tail tail' k k' (· = ·) identifier identifier := by
  refine .of_unit htail htail' ?_ ?_
  · intro ts hts
    unfold identifier
    split
    · have hinert := hts _ rfl
      cases hinert
    · rfl
  · rintro ⟨l, begin, stop⟩ ⟨l', begin', stop'⟩ ts us rfl
    cases l <;> simp [identifier]

theorem negator_steady : Steady tail tail' k k' (fun _ _ => True) negator negator := by
  refine .of_unit htail htail' ?_ ?_
  · intro ts hts
    unfold negator
    split
    · have hinert := hts _ rfl
      cases hinert
    · rfl
  · rintro ⟨l, begin, stop⟩ ⟨l', begin', stop'⟩ ts us rfl
    by_cases he : l = .identifier "not"
    · subst he
      exact .inr ⟨(), (), rfl, rfl, trivial⟩
    · have hnone (p q : Position) (vs : List Token) : negator (⟨l, p, q⟩ :: vs) = none := by
        unfold negator
        split
        · simp_all
        · rfl
      exact .inl ⟨hnone _ _ _, hnone _ _ _⟩

end Units

section Lists

theorem optional_steady {x y : Option α} (h : Steady tail tail' k k' R f g)
    (hts : Alike tail tail' ts us)
    (hk : ts.length < k) (hk' : us.length < k') (hf : optional f ts = (x, rest))
    (hg : optional g us = (y, left)) :
    Option.Rel R x y ∧ Alike tail tail' rest left ∧ rest.length ≤ ts.length ∧
      left.length ≤ us.length := by
  have hread := h hts hk hk'
  simp only [optional] at hf hg
  generalize f ts = a, g us = b at hread hf hg
  cases hread with
  | none =>
    cases hf
    cases hg
    exact ⟨.none, hts, Nat.le_refl _, Nat.le_refl _⟩
  | some h hrest hlt hlt' =>
    cases hf
    cases hg
    exact ⟨.some h, hrest, Nat.le_of_lt hlt, Nat.le_of_lt hlt'⟩

/-- Repetitions agree as long as neither runs out of its bound. -/
theorem many_steady {xs ys : List α} (h : Steady tail tail' k k' R f g)
    (hts : Alike tail tail' ts us)
    (hk : ts.length < k) (hk' : us.length < k') (hn : ts.length < n) (hm : us.length < m)
    (hf : many f n ts = (xs, rest)) (hg : many g m us = (ys, left)) :
    List.Forall₂ R xs ys ∧ Alike tail tail' rest left ∧ rest.length ≤ ts.length ∧
      left.length ≤ us.length := by
  induction n generalizing m ts us xs ys with
  | zero => omega
  | succ n ih =>
    obtain ⟨m, rfl⟩ : ∃ j, m = j + 1 := ⟨m - 1, by omega⟩
    have hread := h hts hk hk'
    simp only [many] at hf hg
    generalize f ts = a, g us = b at hread hf hg
    cases hread with
    | none =>
      cases hf
      cases hg
      exact ⟨.nil, hts, Nat.le_refl _, Nat.le_refl _⟩
    | @some x y mid mid' hR hrest hlt hlt' =>
      rcases hmany : many f n mid with ⟨more, last⟩
      rcases hmany' : many g m mid' with ⟨more', last'⟩
      simp only [hmany, Prod.mk.injEq] at hf
      simp only [hmany', Prod.mk.injEq] at hg
      obtain ⟨rfl, rfl⟩ := hf
      obtain ⟨rfl, rfl⟩ := hg
      obtain ⟨hall, hlast, hle, hle'⟩ :=
        ih hrest (by omega) (by omega) (by omega) (by omega) hmany hmany'
      exact ⟨.cons hR hall, hlast, by omega, by omega⟩

theorem after_steady {separator : Punct → Bool} (htail : Inert tail) (htail' : Inert tail')
    (hseparator : ∀ symbol, separator symbol = true → (Lexeme.punct symbol).isInert = false)
    (h : Steady tail tail' k k' R f g) :
    Steady tail tail' k k' R (after separator f) (after separator g) := by
  intro ts us hts hk hk'
  refine (punctWith_steady htail htail' separator hseparator hts hk hk').bind
    fun _ _ rest left _ hrest hlt hlt' => ?_
  exact (h hrest (by omega) (by omega)).weaken (by omega) (by omega)

theorem further_steady {separator : Punct → Bool} {xs ys : List α} (htail : Inert tail)
    (htail' : Inert tail')
    (hseparator : ∀ symbol, separator symbol = true → (Lexeme.punct symbol).isInert = false)
    (h : Steady tail tail' k k' R f g) (hts : Alike tail tail' ts us)
    (hk : ts.length < k) (hk' : us.length < k') (hn : ts.length < n) (hm : us.length < m)
    (hf : further n separator f ts = (xs, rest)) (hg : further m separator g us = (ys, left)) :
    List.Forall₂ R xs ys ∧ Alike tail tail' rest left ∧ rest.length ≤ ts.length ∧
      left.length ≤ us.length :=
  many_steady (after_steady htail htail' hseparator h) hts hk hk' hn hm hf hg

end Lists

section Terms

variable (file : Path)

/-- Terms that lower to the same tree up to locations. -/
def TermsAgree (t u : Term) : Prop := (t.lower file).placeless = (u.lower file).placeless

/-- Operands that lower to the same tree up to locations. -/
def FactorsAgree (f g : Factor) : Prop := (f.lower file).placeless = (g.lower file).placeless

/-- Term lists that lower to the same trees up to locations. -/
def ListsAgree (ts us : Terms) : Prop :=
  (ts.lower file).map Node.placeless = (us.lower file).map Node.placeless

/-- Pools that lower to the same trees up to locations. -/
def PoolsAgree (p q : Pool) : Prop := placelessPair (p.lower file) = placelessPair (q.lower file)

variable {file}

theorem lowerTerms_agree {xs ys : List Term} (h : List.Forall₂ (TermsAgree file) xs ys) :
    (lowerTerms file xs).map Node.placeless = (lowerTerms file ys).map Node.placeless := by
  induction h with
  | nil => rfl
  | cons hxy _ ih =>
    simp only [lowerTerms, List.map_cons, ih]
    rw [hxy]

theorem lowerAlternatives_agree {xs ys : List Terms} (h : List.Forall₂ (ListsAgree file) xs ys) :
    (lowerAlternatives file xs).map Node.placeless =
      (lowerAlternatives file ys).map Node.placeless := by
  induction h with
  | nil => rfl
  | cons hxy _ ih =>
    simp only [lowerAlternatives, List.map_cons, ih, Node.placeless_withSequence, placeless_named]
    rw [hxy]

theorem lowerChain_agree {xs ys : List (Punct × Factor)}
    (h : List.Forall₂ (fun x y => x.1 = y.1 ∧ FactorsAgree file x.2 y.2) xs ys) {a b : Node}
    (hab : a.placeless = b.placeless) :
    (lowerChain file a xs).placeless = (lowerChain file b ys).placeless := by
  induction h generalizing a b with
  | nil => simpa only [lowerChain] using hab
  | @cons x y xs ys hxy _ ih =>
    obtain ⟨operator, operand⟩ := x
    obtain ⟨operator', operand'⟩ := y
    obtain ⟨rfl, hoperand⟩ := hxy
    simp only [lowerChain]
    exact ih (placeless_joinTerms operator hab hoperand)

variable (htail : Inert tail) (htail' : Inert tail') {f g : Reader Term} {f' g' : Reader Factor}

include htail htail'

theorem termsOf_steady (hn : k ≤ n) (hm : k' ≤ m)
    (h : Steady tail tail' k k' (TermsAgree file) f g) :
    Steady tail tail' k k' (ListsAgree file) (termsOf n f) (termsOf m g) := by
  intro ts us hts hk hk'
  refine (h hts hk hk').bind fun a b rest left hab hrest hlt hlt' => ?_
  rcases hmore : further n (· = .comma) f rest with ⟨more, last⟩
  rcases hmore' : further m (· = .comma) g left with ⟨more', last'⟩
  obtain ⟨hall, hlast, hle, hle'⟩ := further_steady htail htail' (by simp [Lexeme.isInert]) h hrest
    (by omega) (by omega) (by omega) (by omega) hmore hmore'
  simp only [hmore, hmore']
  refine .some ?_ hlast (by omega) (by omega)
  simp only [ListsAgree, Terms.lower, List.map_cons, lowerTerms_agree hall]
  rw [hab]

theorem poolOf_steady (hn : k ≤ n) (hm : k' ≤ m)
    (h : Steady tail tail' k k' (TermsAgree file) f g) :
    Steady tail tail' k k' (PoolsAgree file) (poolOf n f) (poolOf m g) := by
  intro ts us hts hk hk'
  have hterms := termsOf_steady htail htail' hn hm h
  refine (hterms hts hk hk').bind fun a b rest left hab hrest hlt hlt' => ?_
  rcases hmore : further n (· = .semicolon) (termsOf n f) rest with ⟨more, last⟩
  rcases hmore' : further m (· = .semicolon) (termsOf m g) left with ⟨more', last'⟩
  obtain ⟨hall, hlast, hle, hle'⟩ :=
    further_steady htail htail' (by simp [Lexeme.isInert]) hterms hrest
      (by omega) (by omega) (by omega) (by omega) hmore hmore'
  simp only [hmore, hmore']
  refine .some ?_ hlast (by omega) (by omega)
  simp only [PoolsAgree, placelessPair, Pool.lower, lowerAlternatives_agree hall]
  rw [hab]

theorem argumentsOf_steady (hn : k ≤ n) (hm : k' ≤ m)
    (h : Steady tail tail' k k' (TermsAgree file) f g) :
    Steady tail tail' (k + 1) (k' + 1) (fun x y => Option.Rel (PoolsAgree file) x.1 y.1)
      (argumentsOf n f) (argumentsOf m g) := by
  intro ts us hts hk hk'
  refine (punct_steady htail htail' .opening rfl hts hk hk').bind
    fun _ _ rest left _ hrest hlt hlt' => ?_
  rcases hpool : optional (poolOf n f) rest with ⟨pool, rest₂⟩
  rcases hpool' : optional (poolOf m g) left with ⟨pool', left₂⟩
  obtain ⟨hpools, hrest₂, hle, hle'⟩ := optional_steady (poolOf_steady htail htail' hn hm h) hrest
    (by omega) (by omega) hpool hpool'
  simp only [hpool, hpool']
  have hclosing := punct_steady htail htail' .closing rfl hrest₂ (Nat.lt_succ_self _)
    (Nat.lt_succ_self _)
  refine (hclosing.weaken (by omega) (by omega)).bind fun _ _ _ _ _ hlast hlt₂ hlt₂' => ?_
  exact .some hpools hlast hlt₂ hlt₂'

theorem tupleOf_steady (hn : k ≤ n) (hm : k' ≤ m)
    (h : Steady tail tail' k k' (TermsAgree file) f g) :
    Steady tail tail' (k + 1) (k' + 1) (FactorsAgree file) (tupleOf n f) (tupleOf m g) := by
  intro ts us hts hk hk'
  refine (punct_steady htail htail' .opening rfl hts hk hk').bind
    fun _ _ rest left _ hrest hlt hlt' => ?_
  rcases hpool : optional (poolOf n f) rest with ⟨pool, rest₂⟩
  rcases hpool' : optional (poolOf m g) left with ⟨pool', left₂⟩
  obtain ⟨hpools, hrest₂, hle, hle'⟩ := optional_steady (poolOf_steady htail htail' hn hm h) hrest
    (by omega) (by omega) hpool hpool'
  rcases hcomma : optional (punct .comma) rest₂ with ⟨comma, rest₃⟩
  rcases hcomma' : optional (punct .comma) left₂ with ⟨comma', left₃⟩
  obtain ⟨-, hrest₃, hle₃, hle₃'⟩ := optional_steady (punct_steady htail htail' .comma rfl) hrest₂
    (Nat.lt_succ_self _) (Nat.lt_succ_self _) hcomma hcomma'
  simp only [hpool, hpool', hcomma, hcomma']
  have hclosing := punct_steady htail htail' .closing rfl hrest₃ (Nat.lt_succ_self _)
    (Nat.lt_succ_self _)
  refine (hclosing.weaken (by omega) (by omega)).bind fun _ _ _ _ _ hlast hlt₄ hlt₄' => ?_
  refine .some ?_ hlast hlt₄ hlt₄'
  cases hpools with
  | none => exact placeless_tupled rfl
  | some hpools => exact placeless_tupled hpools

theorem absoluteOf_steady (h : Steady tail tail' k k' (TermsAgree file) f g) :
    Steady tail tail' (k + 1) (k' + 1) (FactorsAgree file) (absoluteOf f) (absoluteOf g) := by
  intro ts us hts hk hk'
  refine (punct_steady htail htail' .bar rfl hts hk hk').bind
    fun _ _ rest left _ hrest hlt hlt' => ?_
  have hinner := h hrest (by omega) (by omega)
  refine (hinner.weaken (by omega) (by omega)).bind fun a b rest₂ left₂ hab hrest₂ hlt₂ hlt₂' => ?_
  have hclosing := punct_steady htail htail' .bar rfl hrest₂ (Nat.lt_succ_self _)
    (Nat.lt_succ_self _)
  refine (hclosing.weaken (by omega) (by omega)).bind fun _ _ _ _ _ hlast hlt₃ hlt₃' => ?_
  refine .some ?_ hlast hlt₃ hlt₃'
  simp only [FactorsAgree, Factor.lower, placeless_unary]
  rw [hab]

theorem functionOf_steady (hn : k ≤ n) (hm : k' ≤ m)
    (h : Steady tail tail' k k' (TermsAgree file) f g) :
    Steady tail tail' (k + 1) (k' + 1) (FactorsAgree file) (functionOf n f) (functionOf m g) := by
  intro ts us hts hk hk'
  refine (identifier_steady htail htail' hts hk hk').bind
    fun name _ rest left hsame hrest hlt hlt' => ?_
  subst hsame
  have harguments := argumentsOf_steady htail htail' hn hm h hrest (by omega) (by omega)
  simp only
  generalize argumentsOf n f rest = x, argumentsOf m g left = y at harguments ⊢
  cases harguments with
  | none =>
    refine .some ?_ hrest hlt hlt'
    simp [FactorsAgree, Factor.lower]
  | @some a b rest₂ left₂ hpools hrest₂ hlt₂ hlt₂' =>
    obtain ⟨pool, stop⟩ := a
    obtain ⟨pool', stop'⟩ := b
    refine .some ?_ hrest₂ (by omega) (by omega)
    cases hpools with
    | none => simp [FactorsAgree, Factor.lower]
    | some hpools => exact placeless_applied hpools

theorem simpleFactor_steady :
    Steady tail tail' k k' (FactorsAgree file) simpleFactor simpleFactor := by
  refine .of_unit htail htail' ?_ ?_
  · intro ts hts
    cases ts with
    | nil => rfl
    | cons t ts =>
      refine simpleFactor_eq_none ?_
      have hinert := hts t rfl
      cases hl : t.lexeme with
      | punct s => cases s <;> simp_all [Lexeme.isInert, Lexeme.startsTerm]
      | _ => simp_all [Lexeme.isInert, Lexeme.startsTerm]
  · rintro ⟨l, begin, stop⟩ ⟨l', begin', stop'⟩ ts us rfl
    cases l with
    | keyword word => cases word <;> simp [simpleFactor, FactorsAgree, Factor.lower]
    | _ => simp [simpleFactor, FactorsAgree, Factor.lower]

theorem negationOf_steady (h : Steady tail tail' k k' (FactorsAgree file) f' g') :
    Steady tail tail' (k + 1) (k' + 1) (FactorsAgree file) (negationOf f') (negationOf g') := by
  intro ts us hts hk hk'
  refine (punct_steady htail htail' .minus rfl hts hk hk').bind
    fun _ _ rest left _ hrest hlt hlt' => ?_
  have hinner := h hrest (by omega) (by omega)
  refine (hinner.weaken (by omega) (by omega)).bind fun a b rest₂ left₂ hab hrest₂ hlt₂ hlt₂' => ?_
  refine .some ?_ hrest₂ hlt₂ hlt₂'
  simp only [FactorsAgree, Factor.lower, placeless_unary]
  rw [hab]

theorem operandOf_steady (h : Steady tail tail' k k' (FactorsAgree file) f' g') :
    Steady tail tail' k k' (fun x y => x.1 = y.1 ∧ FactorsAgree file x.2 y.2)
      (operandOf f') (operandOf g') := by
  intro ts us hts hk hk'
  have hoperator := punctWith_steady htail htail' Punct.isArithmetic
    (by rintro (_ | _) <;> simp [Punct.isArithmetic, Lexeme.isInert]) hts hk hk'
  refine hoperator.bind fun operator _ rest left hsame hrest hlt hlt' => ?_
  have hoperand := h hrest (by omega) (by omega)
  refine (hoperand.weaken (by omega) (by omega)).bind
    fun a b rest₂ left₂ hab hrest₂ hlt₂ hlt₂' => ?_
  exact .some ⟨hsame, hab⟩ hrest₂ hlt₂ hlt₂'

theorem chainOf_steady (hn : k ≤ n + 1) (hm : k' ≤ m + 1)
    (h : Steady tail tail' k k' (FactorsAgree file) f' g') :
    Steady tail tail' k k' (TermsAgree file) (chainOf n f') (chainOf m g') := by
  intro ts us hts hk hk'
  refine (h hts hk hk').bind fun a b rest left hab hrest hlt hlt' => ?_
  rcases hmore : many (operandOf f') n rest with ⟨more, last⟩
  rcases hmore' : many (operandOf g') m left with ⟨more', last'⟩
  obtain ⟨hall, hlast, hle, hle'⟩ := many_steady (operandOf_steady htail htail' h) hrest
    (by omega) (by omega) (by omega) (by omega) hmore hmore'
  simp only [hmore, hmore']
  refine .some ?_ hlast (by omega) (by omega)
  simp only [TermsAgree, Term.lower]
  exact lowerChain_agree hall hab

omit htail htail' in
theorem steady_zero {R : α → α → Prop} {f g : Reader α} : Steady tail tail' 0 k' R f g :=
  fun _ _ _ hk _ => absurd hk (Nat.not_lt_zero _)

omit htail htail' in
theorem steady_zero' {R : α → α → Prop} {f g : Reader α} : Steady tail tail' k 0 R f g :=
  fun _ _ _ _ hk => absurd hk (Nat.not_lt_zero _)

/-- Terms read alike as long as the bound on their nesting is twice the number of tokens. -/
theorem term_factor_steady (n m k k' : Nat) :
    (2 * k ≤ n → 2 * k' ≤ m → Steady tail tail' k k' (TermsAgree file) (term n) (term m)) ∧
      (2 * k ≤ n + 1 → 2 * k' ≤ m + 1 →
        Steady tail tail' k k' (FactorsAgree file) (factor n) (factor m)) := by
  induction n generalizing m k k' with
  | zero =>
    constructor
    · intro hn _
      obtain rfl : k = 0 := by omega
      exact steady_zero
    · intro hn _
      obtain rfl : k = 0 := by omega
      exact steady_zero
  | succ n ih =>
    constructor
    · intro hn hm
      cases m with
      | zero =>
        obtain rfl : k' = 0 := by omega
        exact steady_zero'
      | succ m =>
        rw [term, term]
        exact chainOf_steady htail htail' (by omega) (by omega)
          ((ih m k k').2 (by omega) (by omega))
    · intro hn hm
      cases m with
      | zero =>
        obtain rfl : k' = 0 := by omega
        exact steady_zero'
      | succ m =>
        rcases k with _ | k
        · exact steady_zero
        rcases k' with _ | k'
        · exact steady_zero'
        obtain ⟨hterm, hfactor⟩ := ih m k k'
        have hterm := hterm (by omega) (by omega)
        rw [factor, factor]
        exact (negationOf_steady htail htail' (hfactor (by omega) (by omega))).or <|
          (tupleOf_steady htail htail' (by omega) (by omega) hterm).or <|
          (absoluteOf_steady htail htail' hterm).or <|
          (functionOf_steady htail htail' (by omega) (by omega) hterm).or <|
          simpleFactor_steady htail htail'

end Terms

section Literals

variable (file : Path)

/-- Predicate occurrences that lower to the same tree up to locations. -/
def AtomsAgree (a b : Atom) : Prop := (a.lower file).placeless = (b.lower file).placeless

/-- Assertions that lower to the same tree up to locations. -/
def AssertionsAgree (a b : Assertion) : Prop := (a.lower file).placeless = (b.lower file).placeless

/-- Literals that lower to the same tree up to locations. -/
def LiteralsAgree (l l' : Literal) : Prop := (l.lower file).placeless = (l'.lower file).placeless

variable {file}

theorem atomsAgree_of_pools {span span' : Span} {negated : Bool} {name : String}
    {pool pool' : Option Pool} (h : Option.Rel (PoolsAgree file) pool pool') :
    AtomsAgree file ⟨span, negated, name, pool⟩ ⟨span', negated, name, pool'⟩ := by
  have harguments : placelessPair ((pool.map (Pool.lower file)).getD ([], [])) =
      placelessPair ((pool'.map (Pool.lower file)).getD ([], [])) := by
    cases h with
    | none => rfl
    | some h => exact h
  have hsymbol : (applied file span name _).placeless = (applied file span' name _).placeless :=
    placeless_applied harguments
  cases negated <;> simp [AtomsAgree, Atom.lower, Node.placeless_withOperator, hsymbol]

variable (htail : Inert tail) (htail' : Inert tail')

include htail htail'

theorem term_steady (hn : 2 * k ≤ n) (hm : 2 * k' ≤ m) :
    Steady tail tail' k k' (TermsAgree file) (term n) (term m) :=
  (term_factor_steady htail htail' n m k k').1 hn hm

theorem boolean_steady : Steady tail tail' k k' (AssertionsAgree file) boolean boolean := by
  refine .of_unit htail htail' ?_ ?_
  · intro ts hts
    unfold boolean
    split
    · have hinert := hts _ rfl
      cases hinert
    · rfl
  · rintro ⟨l, begin, stop⟩ ⟨l', begin', stop'⟩ ts us rfl
    cases l with
    | keyword word => cases word <;> simp [boolean, AssertionsAgree, Assertion.lower]
    | _ => simp [boolean]

theorem comparison_steady (hn : 2 * k ≤ n) (hm : 2 * k' ≤ m) :
    Steady tail tail' k k' (AssertionsAgree file) (comparison n) (comparison m) := by
  intro ts us hts hk hk'
  have hterm : Steady tail tail' k k' (TermsAgree file) (term n) (term m) :=
    term_steady htail htail' hn hm
  refine (hterm hts hk hk').bind fun a b rest left hab hrest hlt hlt' => ?_
  have hoperator := punctWith_steady htail htail' Punct.isComparison
    (by rintro (_ | _) <;> simp [Punct.isComparison, Lexeme.isInert]) hrest (Nat.lt_succ_self _)
    (Nat.lt_succ_self _)
  refine (hoperator.weaken (by omega) (by omega)).bind
    fun operator _ rest₂ left₂ hsame hrest₂ hlt₂ hlt₂' => ?_
  have hright := hterm hrest₂ (by omega) (by omega)
  refine (hright.weaken (by omega) (by omega)).bind fun c d rest₃ left₃ hcd hrest₃ hlt₃ hlt₃' => ?_
  refine .some ?_ hrest₃ hlt₃ hlt₃'
  subst hsame
  simp only [TermsAgree] at hab hcd
  simp [AssertionsAgree, Assertion.lower, Span.node, hab, hcd]

theorem atom_steady (hn : 2 * k ≤ n) (hm : 2 * k' ≤ m) :
    Steady tail tail' k k' (AtomsAgree file) (atom n) (atom m) := by
  intro ts us hts hk hk'
  have hterm : Steady tail tail' k k' (TermsAgree file) (term n) (term m) :=
    term_steady htail htail' hn hm
  simp only [atom]
  rcases hsign : optional (punct .minus) ts with ⟨sign, rest₁⟩
  rcases hsign' : optional (punct .minus) us with ⟨sign', left₁⟩
  obtain ⟨hsigns, hrest₁, hle, hle'⟩ := optional_steady (punct_steady htail htail' .minus rfl) hts
    (Nat.lt_succ_self _) (Nat.lt_succ_self _) hsign hsign'
  have hnegated : sign.isSome = sign'.isSome := by cases hsigns <;> rfl
  have hname := identifier_steady htail htail' hrest₁ (Nat.lt_succ_self _) (Nat.lt_succ_self _)
  refine (hname.weaken hle hle').bind fun name _ rest left hsame hrest hlt hlt' => ?_
  subst hsame
  have harguments := argumentsOf_steady htail htail' (n := n) (m := m) (by omega)
    (by omega) hterm hrest (by omega) (by omega)
  simp only
  generalize argumentsOf n (term n) rest = x, argumentsOf m (term m) left = y at harguments ⊢
  cases harguments with
  | none =>
    refine .some ?_ hrest hlt hlt'
    rw [hnegated]
    exact atomsAgree_of_pools .none
  | @some a b rest₂ left₂ hpools hrest₂ hlt₂ hlt₂' =>
    obtain ⟨pool, stop⟩ := a
    obtain ⟨pool', stop'⟩ := b
    refine .some ?_ hrest₂ (by omega) (by omega)
    rw [hnegated]
    exact atomsAgree_of_pools hpools

theorem assertion_steady (hn : 2 * k ≤ n) (hm : 2 * k' ≤ m) :
    Steady tail tail' k k' (AssertionsAgree file) (assertion n) (assertion m) :=
  (boolean_steady htail htail').or <| (comparison_steady htail htail' hn hm).or <|
    (atom_steady htail htail' hn hm).map fun _ _ h => h

theorem negations_steady {sign sign' : Negations} (hts : Alike tail tail' ts us)
    (hf : negations ts = (sign, rest)) (hg : negations us = (sign', left)) :
    sign = sign' ∧ Alike tail tail' rest left ∧ rest.length ≤ ts.length ∧
      left.length ≤ us.length := by
  have hfirst := negator_steady htail htail' hts (Nat.lt_succ_self _) (Nat.lt_succ_self _)
  simp only [negations] at hf hg
  generalize negator ts = x, negator us = y at hfirst hf hg
  cases hfirst with
  | none =>
    cases hf
    cases hg
    exact ⟨rfl, hts, Nat.le_refl _, Nat.le_refl _⟩
  | @some _ _ rest₁ left₁ _ hrest₁ hlt hlt' =>
    have hsecond := negator_steady htail htail' hrest₁ (Nat.lt_succ_self _) (Nat.lt_succ_self _)
    simp only at hf hg
    generalize negator rest₁ = x, negator left₁ = y at hsecond hf hg
    cases hsecond with
    | none =>
      cases hf
      cases hg
      exact ⟨rfl, hrest₁, by omega, by omega⟩
    | some _ hrest₂ hlt₂ hlt₂' =>
      cases hf
      cases hg
      exact ⟨rfl, hrest₂, by omega, by omega⟩

/-- Literals read alike in alike surroundings. -/
theorem literal_steady (hn : 2 * k ≤ n) (hm : 2 * k' ≤ m) :
    Steady tail tail' k k' (LiteralsAgree file) (literal n) (literal m) := by
  intro ts us hts hk hk'
  simp only [literal]
  rcases hsign : negations ts with ⟨sign, rest₁⟩
  rcases hsign' : negations us with ⟨sign', left₁⟩
  obtain ⟨rfl, hrest₁, hle, hle'⟩ := negations_steady htail htail' hts hsign hsign'
  have hassertion : Steady tail tail' k k' (AssertionsAgree file) (assertion n) (assertion m) :=
    assertion_steady htail htail' hn hm
  refine ((hassertion hrest₁ (by omega) (by omega)).weaken hle hle').bind
    fun a b rest left hab hrest hlt hlt' => ?_
  refine .some ?_ hrest hlt hlt'
  simp only [AssertionsAgree] at hab
  simp [LiteralsAgree, Literal.lower, Span.node, hab]

end Literals

end AspAtlas.Surface
