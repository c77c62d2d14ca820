import AspAtlas.Proofs.Surface.Refusal
import AspAtlas.Proofs.Surface.TermText
/-!
Reading written terms. The tokens of a part are read as one such part, in front of everything that
does not go on with it, and its text is that of the units it was read from.
-/
namespace AspAtlas.Surface

open Node

variable {n m : Nat} {t : Token} {ts us rest : List Token} {ls : List Lexeme} {file : Path}

/-- The symbols that a part goes on with. -/
def Part.goesOn : Part → Punct → Bool
  | .operand, s => s = .opening
  | .chain, s | .operators, s => s = .opening || s.isArithmetic
  | .members _, s => s = .opening || s.isArithmetic || s = .comma
  | .lists _, s | .pool _ _, s => s = .opening || s.isArithmetic || s = .comma || s = .semicolon

/-- Tokens that start with none of some symbols. -/
def Past (goesOn : Punct → Bool) (ts : List Token) : Prop :=
  ∃ t rest, ts = t :: rest ∧ ∀ s, t.lexeme = .punct s → goesOn s = false

theorem Past.mono {p q : Punct → Bool} (h : Past q ts) (hle : ∀ s, q s = false → p s = false) :
    Past p ts := by
  obtain ⟨t, rest, rfl, ht⟩ := h
  exact ⟨t, rest, rfl, fun s hs => hle s (ht s hs)⟩

theorem past_punct {p : Punct → Bool} {s : Punct} {b e : Position} (h : p s = false) :
    Past p (⟨.punct s, b, e⟩ :: rest) :=
  ⟨_, rest, rfl, fun r hr => by cases hr; exact h⟩

/-- The bound that a part of so many units needs. -/
def Part.bound : Part → Nat → Nat
  | .chain, k | .pool _ _, k => 2 * k + 1
  | _, k => 2 * k

/-- A part is read, and its text is that of its units. -/
def Part.ReadAs (file : Path) (n : Nat) (ls : List Lexeme) (ts rest : List Token) : Part → Prop
  | .operand => ∃ f, factor n (ts ++ rest) = some (f, rest) ∧
      (f.lower file).render.toList = chars ls
  | .chain => ∃ t, term n (ts ++ rest) = some (t, rest) ∧ (t.lower file).render.toList = chars ls
  | .operators => ∀ m, ls.length ≤ m → ∃ os,
      many (operandOf (factor n)) m (ts ++ rest) = (os, rest) ∧
      ∀ left : Node, (lowerChain file left os).render.toList = left.render.toList ++ chars ls
  | .members k => ∀ m, ls.length ≤ m → ∃ more,
      further m (· = .comma) (term n) (ts ++ rest) = (more, rest) ∧
      (lowerTerms file more).length = k ∧
      ((lowerTerms file more).flatMap fun x => ',' :: x.render.toList) = chars ls
  | .lists j => ∀ m, ls.length ≤ m → ∃ others,
      further m (· = .semicolon) (termsOf n (term n)) (ts ++ rest) = (others, rest) ∧
      (lowerAlternatives file others).length = j ∧
      ((lowerAlternatives file others).flatMap fun x => ';' ::
        (argumentsText (x.sequence .arguments)).toList) = chars ls
  | .pool k j => ∃ pool, poolOf n (term n) (ts ++ rest) = some (pool, rest) ∧
      (pool.lower file).1.length = k ∧ (pool.lower file).2.length = j ∧
      (poolText (pool.lower file).1 (pool.lower file).2).toList = chars ls

section Tokens

theorem exists_token {l : Lexeme} (h : ts.map Token.lexeme = l :: ls) :
    ∃ b e us, ts = ⟨l, b, e⟩ :: us ∧ us.map Token.lexeme = ls := by
  obtain ⟨⟨lexeme, b, e⟩, us, rfl, rfl, hus⟩ := List.map_eq_cons_iff.mp h
  exact ⟨b, e, us, rfl, hus⟩

theorem exists_tokens {a b : List Lexeme} (h : ts.map Token.lexeme = a ++ b) :
    ∃ us vs, ts = us ++ vs ∧ us.map Token.lexeme = a ∧ vs.map Token.lexeme = b :=
  List.map_eq_append_iff.mp h

theorem exists_lone_token {l : Lexeme} (h : ts.map Token.lexeme = [l]) :
    ∃ b e, ts = [⟨l, b, e⟩] := by
  obtain ⟨b, e, us, rfl, hus⟩ := exists_token h
  exact ⟨b, e, by rw [List.map_eq_nil_iff.mp hus]⟩

/-- Tokens between two units that belong together. -/
theorem exists_bracketed {l r : Lexeme} (h : ts.map Token.lexeme = l :: (ls ++ [r])) :
    ∃ b e us b' e', ts = ⟨l, b, e⟩ :: (us ++ [⟨r, b', e'⟩]) ∧ us.map Token.lexeme = ls := by
  obtain ⟨b, e, vs, rfl, hvs⟩ := exists_token h
  obtain ⟨us, ws, rfl, hus, hws⟩ := exists_tokens hvs
  obtain ⟨b', e', rfl⟩ := exists_lone_token hws
  exact ⟨b, e, us, b', e', rfl, hus⟩

theorem punct_of_past {s : Punct} {p : Punct → Bool} (h : Past p ts) (hs : p s = true) :
    punct s ts = none := by
  obtain ⟨t, rest, rfl, ht⟩ := h
  refine punct_eq_none fun he => ?_
  simp [ht s he] at hs

theorem punctWith_of_past {p accept : Punct → Bool} (h : Past p ts)
    (hle : ∀ s, p s = false → accept s = false) : punctWith accept ts = none := by
  obtain ⟨⟨lexeme, b, e⟩, rest, rfl, ht⟩ := h
  cases lexeme with
  | punct s => simp [punctWith, hle s (ht s rfl)]
  | _ => rfl

theorem further_of_past {α : Type} {item : Reader α} {p separator : Punct → Bool} (h : Past p ts)
    (hle : ∀ s, p s = false → separator s = false) : further m separator item ts = ([], ts) := by
  cases m with
  | zero => rfl
  | succ m => simp [further, many, after, punctWith_of_past h hle]

end Tokens

/-- The units of a part go on as long as it does. -/
theorem Written.past {part : Part} (h : Written part ls) (hts : ts.map Token.lexeme = ls)
    (hrest : Past part.goesOn rest) :
    match part with
    | .operators => Past Part.operand.goesOn (ts ++ rest)
    | .members _ => Past Part.chain.goesOn (ts ++ rest)
    | .lists _ => Past (Part.members 0).goesOn (ts ++ rest)
    | _ => True := by
  cases h with
  | noOperators =>
    rw [List.map_eq_nil_iff.mp hts]
    exact hrest.mono (by simp +contextual [Part.goesOn])
  | operator hs _ _ =>
    obtain ⟨b, e, us, rfl, -⟩ := exists_token hts
    refine past_punct ?_
    simp only [Part.goesOn, decide_eq_false_iff_not]
    rintro rfl
    simp [Punct.isArithmetic] at hs
  | noMembers =>
    rw [List.map_eq_nil_iff.mp hts]
    exact hrest.mono (by simp +contextual [Part.goesOn])
  | member _ _ =>
    obtain ⟨b, e, us, rfl, -⟩ := exists_token hts
    exact past_punct rfl
  | noLists =>
    rw [List.map_eq_nil_iff.mp hts]
    exact hrest.mono (by simp +contextual [Part.goesOn])
  | list _ _ _ =>
    obtain ⟨b, e, us, rfl, -⟩ := exists_token hts
    exact past_punct rfl
  | _ => trivial

section Dispatch

variable {b e : Position}

theorem factor_identifier {name : String} : factor (n + 1) (⟨.identifier name, b, e⟩ :: rest) =
    functionOf n (term n) (⟨.identifier name, b, e⟩ :: rest) := by
  simp only [factor, negationOf, tupleOf, absoluteOf, punct, simpleFactor]
  cases functionOf n (term n) (⟨.identifier name, b, e⟩ :: rest) <;> rfl

theorem factor_opening : factor (n + 1) (⟨.punct .opening, b, e⟩ :: rest) =
    tupleOf n (term n) (⟨.punct .opening, b, e⟩ :: rest) := by
  simp only [factor, negationOf, absoluteOf, functionOf, punct, identifier, simpleFactor]
  cases tupleOf n (term n) (⟨.punct .opening, b, e⟩ :: rest) <;> rfl

theorem factor_bar : factor (n + 1) (⟨.punct .bar, b, e⟩ :: rest) =
    absoluteOf (term n) (⟨.punct .bar, b, e⟩ :: rest) := by
  simp only [factor, negationOf, tupleOf, functionOf, punct, identifier, simpleFactor]
  cases absoluteOf (term n) (⟨.punct .bar, b, e⟩ :: rest) <;> rfl

theorem factor_minus : factor (n + 1) (⟨.punct .minus, b, e⟩ :: rest) =
    negationOf (factor n) (⟨.punct .minus, b, e⟩ :: rest) := by
  simp only [factor, tupleOf, absoluteOf, functionOf, punct, identifier, simpleFactor]
  cases negationOf (factor n) (⟨.punct .minus, b, e⟩ :: rest) <;> rfl

theorem factor_standsAlone {l : Lexeme} (h : l.standsAlone = true) :
    ∃ f, factor (n + 1) (⟨l, b, e⟩ :: rest) = some (f, rest) ∧
      (f.lower file).render.toList = l.chars := by
  have hsimple : factor (n + 1) (⟨l, b, e⟩ :: rest) = simpleFactor (⟨l, b, e⟩ :: rest) := by
    cases l with
    | var _ | number _ | quoted _ | keyword _ =>
      simp [factor, negationOf, tupleOf, absoluteOf, functionOf, punct, identifier]
    | _ => cases h
  rw [hsimple]
  cases l with
  | var name => exact ⟨_, rfl, congrArg String.toList (render_name (.inl rfl))⟩
  | number digits => exact ⟨_, rfl, congrArg String.toList (render_name (.inr rfl))⟩
  | quoted text => exact ⟨_, rfl, congrArg String.toList (render_name (.inr rfl))⟩
  | keyword word =>
    have hword : word ∈ [Keyword.supremum, .sup, .infimum,
        .inf] := by simpa [Lexeme.standsAlone] using h
    exact ⟨.constant ⟨b, e⟩ word.text, by simp only [simpleFactor, if_pos hword],
      congrArg String.toList (render_name (.inr rfl))⟩
  | _ => cases h

end Dispatch

section Reading

theorem Pool.lower_ne_nil (pool : Pool) : (pool.lower file).1 ≠ [] := by
  cases pool with
  | alternatives first others =>
    cases first
    simp [Pool.lower, Terms.lower]

/-- A pool between parentheses, behind a name or on its own. -/
theorem exists_pool {k j : Nat} {ps : List Lexeme} {b e : Position}
    (h : (Part.pool k j).ReadAs file n ps ts (⟨.punct .closing, b, e⟩ :: rest)) (b' e' : Position) :
    ∃ pool, argumentsOf n (term n)
      (⟨.punct .opening, b', e'⟩ :: (ts ++ ⟨.punct .closing, b, e⟩ :: rest)) =
        some ((some pool, e), rest) ∧
      tupleOf n (term n) (⟨.punct .opening, b', e'⟩ :: (ts ++ ⟨.punct .closing, b, e⟩ :: rest)) =
        some (.tuple ⟨b', e⟩ (some pool), rest) ∧
      (pool.lower file).1.length = k ∧ (pool.lower file).2.length = j ∧
      (poolText (pool.lower file).1 (pool.lower file).2).toList = chars ps := by
  obtain ⟨pool, hpool, hk, hj, htext⟩ := h
  refine ⟨pool, ?_, ?_, hk, hj, htext⟩
  · simp [argumentsOf, punct, optional, hpool]
  · simp [tupleOf, punct, optional, hpool, beginOf]

/-- A term and what follows its commas are a list. -/
theorem exists_list {k : Nat} {first : Term} {more : List Term} {a ms : List Lexeme}
    {us' : List Token}
    (hfirst : term n ts = some (first, us)) (htext : (first.lower file).render.toList = chars a)
    (hmore : further n (· = .comma) (term n) us = (more, us'))
    (hk : (lowerTerms file more).length = k)
    (hmembers : ((lowerTerms file more).flatMap fun x => ',' :: x.render.toList) = chars ms) :
    ∃ list, termsOf n (term n) ts = some (list, us') ∧ (list.lower file).length = k + 1 ∧
      (argumentsText (list.lower file)).toList = chars (a ++ ms) := by
  refine ⟨.list ⟨beginOf ts, endOf (·.span.stop) more us⟩ first more, ?_, ?_, ?_⟩
  · simp [termsOf, hfirst, hmore]
  · rw [Terms.lower, List.length_cons, hk]
  · rw [Terms.lower, toList_argumentsText, htext, hmembers, chars_append]

/-- Wherever the tokens of a part stand, in front of what does not go on with it, they are read as
one, with the text of its units. -/
def Part.Rereads (file : Path) (part : Part) (ls : List Lexeme) : Prop :=
  ∀ n ts rest, part.bound ls.length ≤ n → ts.map Token.lexeme = ls → Past part.goesOn rest →
    part.ReadAs file n ls ts rest

namespace Part

/-! One lemma for each way to write a part, from what is said of the parts in it. -/

theorem rereads_alone {l : Lexeme} (hl : l.standsAlone = true) : operand.Rereads file [l] := by
  intro n ts rest hn hts _
  obtain ⟨b, e, rfl⟩ := exists_lone_token hts
  simp only [bound, List.length_singleton] at hn
  obtain ⟨n, rfl⟩ := Nat.exists_eq_add_one_of_ne_zero (by omega : n ≠ 0)
  obtain ⟨f, hf, htext⟩ := factor_standsAlone hl
  exact ⟨f, hf, by simpa using htext⟩

theorem rereads_name {name : String} : operand.Rereads file [.identifier name] := by
  intro n ts rest hn hts hrest
  obtain ⟨b, e, rfl⟩ := exists_lone_token hts
  simp only [bound, List.length_singleton] at hn
  obtain ⟨n, rfl⟩ := Nat.exists_eq_add_one_of_ne_zero (by omega : n ≠ 0)
  have hopening : punct .opening rest = none := punct_of_past hrest rfl
  refine ⟨.function ⟨b, beginOf rest⟩ name none, ?_, ?_⟩
  · rw [List.singleton_append, factor_identifier]
    simp [functionOf, identifier, argumentsOf, hopening, beginOf]
  · exact (congrArg String.toList (render_name (.inr rfl))).trans
      (by simp [Factor.lower, named, Lexeme.chars])

theorem rereads_call {name : String} {k j : Nat} {ps : List Lexeme}
    (h : (pool k j).Rereads file ps) :
    operand.Rereads file (.identifier name :: .punct .opening :: (ps ++ [.punct .closing])) := by
  intro n ts rest hn hts _
  obtain ⟨b, e, us₁, rfl, hus₁⟩ := exists_token hts
  obtain ⟨b₁, e₁, us, b₂, e₂, rfl, hus⟩ := exists_bracketed hus₁
  simp only [bound, List.length_cons, List.length_append, List.length_nil] at hn
  obtain ⟨n, rfl⟩ := Nat.exists_eq_add_one_of_ne_zero (by omega : n ≠ 0)
  have hread := h n us (⟨.punct .closing, b₂, e₂⟩ :: rest) (by simp only [bound]; omega) hus
    (past_punct rfl)
  obtain ⟨pool, harguments, -, -, -, htext⟩ := exists_pool hread b₁ e₁
  refine ⟨.function ⟨b, e₂⟩ name (some pool), ?_, ?_⟩
  · rw [List.cons_append, List.cons_append, List.append_assoc, factor_identifier]
    simp [functionOf, identifier, harguments, beginOf]
  · rw [Factor.lower, toList_render_applied name pool.lower_ne_nil, htext]
    simp [Lexeme.chars, Punct.text]

theorem rereads_unit : operand.Rereads file [.punct .opening, .punct .closing] := by
  intro n ts rest hn hts _
  obtain ⟨b, e, us, rfl, hus⟩ := exists_token hts
  obtain ⟨b₁, e₁, rfl⟩ := exists_lone_token hus
  simp only [bound, List.length_cons] at hn
  obtain ⟨n, rfl⟩ := Nat.exists_eq_add_one_of_ne_zero (by omega : n ≠ 0)
  have hterm : term n (⟨.punct .closing, b₁, e₁⟩ :: rest) = none := term_eq_none rfl
  refine ⟨.tuple ⟨b, e₁⟩ none, ?_, ?_⟩
  · rw [List.cons_append, List.singleton_append, factor_opening]
    simp [tupleOf, punct, optional, poolOf, termsOf, hterm, beginOf]
  · rw [Factor.lower, tupled_of_ne (by simp), render_applied]
    rfl

theorem rereads_tuple {k j : Nat} {ps : List Lexeme} (h : (pool k j).Rereads file ps)
    (hmore : (k, j) ≠ (1, 0)) :
    operand.Rereads file (.punct .opening :: (ps ++ [.punct .closing])) := by
  intro n ts rest hn hts _
  obtain ⟨b, e, us, b₁, e₁, rfl, hus⟩ := exists_bracketed hts
  simp only [bound, List.length_cons, List.length_append, List.length_nil] at hn
  obtain ⟨n, rfl⟩ := Nat.exists_eq_add_one_of_ne_zero (by omega : n ≠ 0)
  have hread := h n us (⟨.punct .closing, b₁, e₁⟩ :: rest) (by simp only [bound]; omega) hus
    (past_punct rfl)
  obtain ⟨pool, -, htuple, hk, hj, htext⟩ := exists_pool hread b e
  refine ⟨.tuple ⟨b, e₁⟩ (some pool), ?_, ?_⟩
  · rw [List.cons_append, List.append_assoc, factor_opening]
    exact htuple
  · rw [Factor.lower, tupled_of_ne (by rw [hk, hj]; exact hmore),
      toList_render_applied "" pool.lower_ne_nil, htext]
    simp [Lexeme.chars, Punct.text]

theorem rereads_absolute {a : List Lexeme} (h : chain.Rereads file a) :
    operand.Rereads file (.punct .bar :: (a ++ [.punct .bar])) := by
  intro n ts rest hn hts _
  obtain ⟨b, e, us, b₁, e₁, rfl, hus⟩ := exists_bracketed hts
  simp only [bound, List.length_cons, List.length_append, List.length_nil] at hn
  obtain ⟨n, rfl⟩ := Nat.exists_eq_add_one_of_ne_zero (by omega : n ≠ 0)
  obtain ⟨inner, hinner, htext⟩ :=
    h n us (⟨.punct .bar, b₁, e₁⟩ :: rest) (by simp only [bound]; omega) hus (past_punct rfl)
  refine ⟨.absolute ⟨b, e₁⟩ inner, ?_, ?_⟩
  · rw [List.cons_append, List.append_assoc, factor_bar]
    simp [absoluteOf, punct, hinner, beginOf]
  · rw [Factor.lower, render_unary, if_pos (by decide), String.toList_append,
      String.toList_append, htext]
    simp [Lexeme.chars, Punct.text]

theorem rereads_negation {a : List Lexeme} (h : operand.Rereads file a) :
    operand.Rereads file (.punct .minus :: a) := by
  intro n ts rest hn hts hrest
  obtain ⟨b, e, us, rfl, hus⟩ := exists_token hts
  simp only [bound, List.length_cons] at hn
  obtain ⟨n, rfl⟩ := Nat.exists_eq_add_one_of_ne_zero (by omega : n ≠ 0)
  obtain ⟨inner, hinner, htext⟩ := h n us rest (by simp only [bound]; omega) hus hrest
  refine ⟨.negation ⟨b, inner.span.stop⟩ inner, ?_, ?_⟩
  · rw [List.cons_append, factor_minus]
    simp [negationOf, punct, hinner, beginOf]
  · rw [Factor.lower, render_unary, if_neg (by decide), String.toList_append, htext]
    rfl

theorem rereads_chain {a os : List Lexeme} (ha : operand.Rereads file a)
    (hos : Written operators os)
    (hmore : operators.Rereads file os) : chain.Rereads file (a ++ os) := by
  intro n ts rest hn hts hrest
  obtain ⟨us, vs, rfl, hus, hvs⟩ := exists_tokens hts
  simp only [bound, List.length_append] at hn
  obtain ⟨n, rfl⟩ := Nat.exists_eq_add_one_of_ne_zero (by omega : n ≠ 0)
  obtain ⟨first, hfirst, htext⟩ :=
    ha n us (vs ++ rest) (by simp only [bound]; omega) hus (hos.past hvs hrest)
  obtain ⟨more, hread, hrender⟩ :=
    hmore n vs rest (by simp only [bound]; omega) hvs hrest n (by omega)
  refine ⟨.chain ⟨beginOf (us ++ (vs ++ rest)), endOf (·.2.span.stop) more (vs ++ rest)⟩ first
    more, ?_, ?_⟩
  · simp [term, chainOf, hfirst, hread]
  · rw [Term.lower, hrender, htext, chars_append]

theorem rereads_noOperators : operators.Rereads file [] := by
  intro n ts rest _ hts hrest m _
  obtain rfl := List.map_eq_nil_iff.mp hts
  have hnone : punctWith Punct.isArithmetic rest = none :=
    punctWith_of_past hrest (by simp +contextual [goesOn])
  refine ⟨[], ?_, fun left => by simp [lowerChain]⟩
  cases m with
  | zero => rfl
  | succ m => simp [many, operandOf, hnone]

theorem rereads_operator {s : Punct} {a os : List Lexeme} (hs : s.isArithmetic = true)
    (ha : operand.Rereads file a) (hos : Written operators os) (hmore : operators.Rereads file os) :
    operators.Rereads file (.punct s :: (a ++ os)) := by
  intro n ts rest hn hts hrest m hm
  obtain ⟨b, e, us₁, rfl, hus₁⟩ := exists_token hts
  obtain ⟨us, vs, rfl, hus, hvs⟩ := exists_tokens hus₁
  simp only [bound, List.length_cons, List.length_append] at hn hm
  obtain ⟨m, rfl⟩ := Nat.exists_eq_add_one_of_ne_zero (by omega : m ≠ 0)
  obtain ⟨operand, hoperand, htext⟩ :=
    ha n us (vs ++ rest) (by simp only [bound]; omega) hus (hos.past hvs hrest)
  obtain ⟨more, hread, hrender⟩ :=
    hmore n vs rest (by simp only [bound]; omega) hvs hrest m (by omega)
  refine ⟨(s, operand) :: more, ?_, fun left => ?_⟩
  · simp [many, operandOf, punctWith, hs, hoperand, hread]
  · rw [lowerChain, hrender, render_joinTerms, String.toList_append, String.toList_append, htext,
      chars_cons, chars_append]
    simp [Lexeme.chars]

theorem rereads_noMembers : (members 0).Rereads file [] := by
  intro n ts rest _ hts hrest m _
  obtain rfl := List.map_eq_nil_iff.mp hts
  exact ⟨[], further_of_past hrest (by simp +contextual [goesOn]), rfl, rfl⟩

theorem rereads_member {k : Nat} {a ms : List Lexeme} (ha : chain.Rereads file a)
    (hms : Written (members k) ms) (hmore : (members k).Rereads file ms) :
    (members (k + 1)).Rereads file (.punct .comma :: (a ++ ms)) := by
  intro n ts rest hn hts hrest m hm
  obtain ⟨b, e, us₁, rfl, hus₁⟩ := exists_token hts
  obtain ⟨us, vs, rfl, hus, hvs⟩ := exists_tokens hus₁
  simp only [bound, List.length_cons, List.length_append] at hn hm
  obtain ⟨m, rfl⟩ := Nat.exists_eq_add_one_of_ne_zero (by omega : m ≠ 0)
  obtain ⟨first, hfirst, htext⟩ :=
    ha n us (vs ++ rest) (by simp only [bound]; omega) hus (hms.past hvs hrest)
  obtain ⟨more, hread, hk, hrender⟩ :=
    hmore n vs rest (by simp only [bound]; omega) hvs hrest m (by omega)
  rw [further] at hread
  refine ⟨first :: more, ?_, ?_, ?_⟩
  · simp [further, many, after, punctWith, hfirst, hread]
  · rw [lowerTerms, List.length_cons, hk]
  · rw [lowerTerms, List.flatMap_cons, hrender, htext, chars_cons, chars_append]
    rfl

theorem rereads_noLists : (lists 0).Rereads file [] := by
  intro n ts rest _ hts hrest m _
  obtain rfl := List.map_eq_nil_iff.mp hts
  exact ⟨[], further_of_past hrest (by simp +contextual [goesOn]), rfl, rfl⟩

/-- An argument list and the lists behind it, as tokens. -/
theorem exists_lists {k j : Nat} {a ms os : List Lexeme} (ha : chain.Rereads file a)
    (hms : Written (members k) ms) (hmembers : (members k).Rereads file ms)
    (hos : Written (lists j) os)
    (hlists : (lists j).Rereads file os) (hn : 2 * (a.length + (ms.length + os.length)) + 1 ≤ n)
    (hm : os.length ≤ m) (hts : ts.map Token.lexeme = a ++ (ms ++ os))
    (hrest : Past (lists j).goesOn rest) : ∃ (list : Terms) (others : List Terms) (us : List Token),
      termsOf n (term n) (ts ++ rest) = some (list, us) ∧
      further m (· = .semicolon) (termsOf n (term n)) us = (others, rest) ∧
      (list.lower file).length = k + 1 ∧ (lowerAlternatives file others).length = j ∧
      (argumentsText (list.lower file)).toList = chars (a ++ ms) ∧
      ((lowerAlternatives file others).flatMap fun x => ';' ::
        (argumentsText (x.sequence .arguments)).toList) = chars os := by
  obtain ⟨us, vs₁, rfl, hus, hvs₁⟩ := exists_tokens hts
  obtain ⟨vs, ws, rfl, hvs, hws⟩ := exists_tokens hvs₁
  have hpast := hos.past hws hrest
  obtain ⟨first, hfirst, htext⟩ :=
    ha n us (vs ++ (ws ++ rest)) (by simp only [bound]; omega) hus (hms.past hvs hpast)
  obtain ⟨more, hmore, hk, hmembers⟩ :=
    hmembers n vs (ws ++ rest) (by simp only [bound]; omega) hvs hpast n (by omega)
  obtain ⟨others, hread, hj, hrender⟩ :=
    hlists n ws rest (by simp only [bound]; omega) hws hrest m hm
  obtain ⟨list, hlist, hlength, hlisttext⟩ := exists_list hfirst htext hmore hk hmembers
  refine ⟨list, others, ws ++ rest, ?_, hread, hlength, hj, hlisttext, hrender⟩
  rwa [List.append_assoc, List.append_assoc]

theorem rereads_list {k j : Nat} {a ms os : List Lexeme} (ha : chain.Rereads file a)
    (hms : Written (members k) ms) (hmembers : (members k).Rereads file ms)
    (hos : Written (lists j) os) (hlists : (lists j).Rereads file os) :
    (lists (j + 1)).Rereads file (.punct .semicolon :: (a ++ (ms ++ os))) := by
  intro n ts rest hn hts hrest m hm
  obtain ⟨b, e, us, rfl, hus⟩ := exists_token hts
  simp only [bound, List.length_cons, List.length_append] at hn hm
  obtain ⟨m, rfl⟩ := Nat.exists_eq_add_one_of_ne_zero (by omega : m ≠ 0)
  obtain ⟨list, others, vs, hlist, hread, -, hj, hlisttext, hrender⟩ :=
    exists_lists ha hms hmembers hos hlists (n := n) (m := m) (by omega) (by omega) hus hrest
  rw [further] at hread
  refine ⟨list :: others, ?_, ?_, ?_⟩
  · simp [further, many, after, punctWith, hlist, hread]
  · rw [lowerAlternatives, List.length_cons, hj]
  · rw [lowerAlternatives, List.flatMap_cons, hrender, sequence_withSequence, if_pos rfl, hlisttext,
      chars_cons, ← List.append_assoc, chars_append (_ ++ _)]
    rfl

theorem rereads_pool {k j : Nat} {a ms os : List Lexeme} (ha : chain.Rereads file a)
    (hms : Written (members k) ms) (hmembers : (members k).Rereads file ms)
    (hos : Written (lists j) os)
    (hlists : (lists j).Rereads file os) : (pool (k + 1) j).Rereads file (a ++ (ms ++ os)) := by
  intro n ts rest hn hts hrest
  simp only [bound, List.length_append] at hn
  obtain ⟨list, others, vs, hlist, hread, hlength, hj, hlisttext, hrender⟩ :=
    exists_lists ha hms hmembers hos hlists hn (m := n) (by omega) hts hrest
  refine ⟨.alternatives list others, ?_, ?_, ?_, ?_⟩
  · simp [poolOf, hlist, hread]
  · rw [Pool.lower, hlength]
  · rw [Pool.lower, hj]
  · rw [Pool.lower, poolText, toList_intercalate_cons, List.flatMap_map, hlisttext,
      ← List.append_assoc, chars_append (_ ++ _), ← hrender]
    rfl

end Part

/-- The tokens of a part are read as one, with the text of its units. -/
theorem Written.reads {part : Part} (h : Written part ls) (file : Path) : part.Rereads file ls := by
  induction h with
  | alone hl _ => exact Part.rereads_alone hl
  | name _ => exact Part.rereads_name
  | call _ _ ih => exact Part.rereads_call ih
  | unit => exact Part.rereads_unit
  | tuple _ hmore ih => exact Part.rereads_tuple ih hmore
  | absolute _ ih => exact Part.rereads_absolute ih
  | negation _ ih => exact Part.rereads_negation ih
  | chain _ hos iha ihos => exact Part.rereads_chain iha hos ihos
  | noOperators => exact Part.rereads_noOperators
  | operator hs _ hos iha ihos => exact Part.rereads_operator hs iha hos ihos
  | noMembers => exact Part.rereads_noMembers
  | member _ hms iha ihms => exact Part.rereads_member iha hms ihms
  | noLists => exact Part.rereads_noLists
  | list _ hms hos iha ihms ihos => exact Part.rereads_list iha hms ihms hos ihos
  | pool _ hms hos iha ihms ihos => exact Part.rereads_pool iha hms ihms hos ihos

end Reading

end AspAtlas.Surface
