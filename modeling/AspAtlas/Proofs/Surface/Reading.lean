import AspAtlas.Proofs.Surface.Placement
import AspAtlas.Proofs.Surface.Steps
import AspAtlas.Proofs.Surface.Tokens
/-!
What is read lies where it was read: between the token at which a reader starts and the one at which
it leaves off, with its parts in the order in which they were taken.
-/
namespace AspAtlas.Surface

/-- What a reader takes lies between the next token and the one behind it. -/
def Reads {α : Type} (P : Position → Position → α → Prop) (reader : Reader α) : Prop :=
  ∀ ⦃ts : List Token⦄ ⦃a : α⦄ ⦃rest : List Token⦄, reader ts = some (a, rest) → Ascending ts →
    Ascending rest ∧ P (beginOf ts) (beginOf rest) a

/-- A reader takes a token at least. -/
abbrev Advances {α : Type} (reader : Reader α) : Prop := Reads (fun lo hi _ => lo < hi) reader

/-- A reader takes a token at least, and gives a position behind it that the next one does not
precede. -/
abbrev Ends (reader : Reader Position) : Prop :=
  Reads (fun lo hi stop => lo < stop ∧ stop ≤ hi) reader

variable {α : Type} {P : Position → Position → α → Prop} {span : α → Span} {item : Reader α}
  {n : Nat} {ts rest : List Token}

theorem Reads.advances (h : Reads P item) (hP : Spanned P span) : Advances item := by
  intro ts a rest hread hts
  obtain ⟨hrest, ha⟩ := h hread hts
  exact ⟨hrest, hP.lt ha⟩

theorem Ends.advances {reader : Reader Position} (h : Ends reader) : Advances reader := by
  intro ts stop rest hread hts
  obtain ⟨hrest, hlt, hle⟩ := h hread hts
  exact ⟨hrest, hlt.trans_le hle⟩

/-- Of two readers the second is asked when the first fails. -/
theorem Reads.or {other : Reader α} (h : Reads P item) (hother : Reads P other) :
    Reads P fun ts => item ts <|> other ts := by
  intro ts a rest hread hts
  rcases orElse_steps hread with hitem | ⟨-, hread⟩
  · exact h hitem hts
  · exact hother hread hts

/-- Wrapping up what was read keeps it where it is. -/
theorem Reads.map {β : Type} {Q : Position → Position → β → Prop} {f : α → β} (h : Reads P item)
    (hf : ∀ {lo hi a}, P lo hi a → Q lo hi (f a)) :
    Reads Q fun ts => (item ts).map fun x => (f x.1, x.2) := by
  intro ts b rest hread hts
  obtain ⟨a, hitem, rfl⟩ := map_steps hread
  obtain ⟨hrest, ha⟩ := h hitem hts
  exact ⟨hrest, hf ha⟩

theorem punct_ends (symbol : Punct) : Ends (punct symbol) := by
  intro ts stop rest h hts
  obtain ⟨begin, rfl⟩ := punct_steps h
  obtain ⟨hlt, hle, hrest⟩ := hts.tail (by simp)
  exact ⟨hrest, hlt, hle⟩

theorem endDot_ends : Ends endDot := by
  intro ts stop rest h hts
  rcases endDot_steps h with ⟨begin, rfl⟩ | ⟨begin, last, more, rfl, rfl, rfl⟩
  · obtain ⟨hlt, hle, hrest⟩ := hts.tail (by simp)
    exact ⟨hrest, hlt, hle⟩
  · obtain ⟨hlt, hrest⟩ := hts.split_dots
    exact ⟨hrest, hlt, le_refl _⟩

/-- What stands behind a token begins behind it. -/
theorem Ascending.advance {t : Token} (h : Ascending (t :: rest)) (hne : t.lexeme ≠ .finish) :
    Ascending rest ∧ beginOf (t :: rest) < beginOf rest := by
  obtain ⟨hlt, hle, hrest⟩ := h.tail hne
  exact ⟨hrest, hlt.trans_le hle⟩

theorem punctWith_advances (accept : Punct → Bool) : Advances (punctWith accept) := by
  intro ts symbol rest h hts
  obtain ⟨begin, stop, rfl, -⟩ := punctWith_steps h
  exact hts.advance (by simp)

theorem keyword_advances (word : Keyword) : Advances (keyword word) := by
  intro ts symbol rest h hts
  obtain ⟨begin, stop, rfl⟩ := keyword_steps h
  exact hts.advance (by simp)

theorem keywordWith_advances (accept : Keyword → Bool) : Advances (keywordWith accept) := by
  intro ts word rest h hts
  obtain ⟨begin, stop, rfl, -⟩ := keywordWith_steps h
  exact hts.advance (by simp)

theorem identifier_advances : Advances identifier := by
  intro ts text rest h hts
  obtain ⟨begin, stop, rfl⟩ := identifier_steps h
  exact hts.advance (by simp)

theorem number_advances : Advances number := by
  intro ts digits rest h hts
  obtain ⟨begin, stop, rfl⟩ := number_steps h
  exact hts.advance (by simp)

theorem optional_row {x : Option α} (h : Reads P item) (hread : optional item ts = (x, rest))
    (hts : Ascending ts) : Ascending rest ∧ Row P (beginOf ts) (beginOf rest) x.toList := by
  rcases optional_steps hread with ⟨a, hitem, rfl⟩ | ⟨-, rfl, rfl⟩
  · obtain ⟨hrest, ha⟩ := h hitem hts
    exact ⟨hrest, .singleton ha⟩
  · exact ⟨hts, .nil (le_refl _)⟩

theorem optional_le {x : Option α} (h : Advances item) (hread : optional item ts = (x, rest))
    (hts : Ascending ts) : Ascending rest ∧ beginOf ts ≤ beginOf rest := by
  rcases optional_steps hread with ⟨a, hitem, -⟩ | ⟨-, -, rfl⟩
  · obtain ⟨hrest, ha⟩ := h hitem hts
    exact ⟨hrest, ha.le⟩
  · exact ⟨hts, le_refl _⟩

theorem many_row {more : List α} (h : Reads P item) (hread : many item n ts = (more, rest))
    (hts : Ascending ts) : Ascending rest ∧ Row P (beginOf ts) (beginOf rest) more := by
  induction n generalizing ts more with
  | zero =>
    cases hread
    exact ⟨hts, .nil (le_refl _)⟩
  | succ n ih =>
    rcases many_steps hread with ⟨a, left, others, hitem, hmany, rfl⟩ | ⟨-, rfl, rfl⟩
    · obtain ⟨hleft, ha⟩ := h hitem hts
      obtain ⟨hrest, hothers⟩ := ih hmany hleft
      exact ⟨hrest, .cons ha hothers⟩
    · exact ⟨hts, .nil (le_refl _)⟩

theorem after_reads (hP : Spanned P span) (h : Reads P item) (separator : Punct → Bool) :
    Reads P (after separator item) := by
  intro ts a rest hread hts
  obtain ⟨symbol, left, hsymbol, hitem⟩ := after_steps hread
  obtain ⟨hleft, hlt⟩ := punctWith_advances separator hsymbol hts
  obtain ⟨hrest, ha⟩ := h hitem hleft
  exact ⟨hrest, hP.mono ha hlt.le (le_refl _)⟩

theorem further_row {separator : Punct → Bool} {more : List α} (hP : Spanned P span)
    (h : Reads P item) (hread : further n separator item ts = (more, rest)) (hts : Ascending ts) :
    Ascending rest ∧ Row P (beginOf ts) (beginOf rest) more :=
  many_row (after_reads hP h separator) hread hts

theorem semicolons_row {more : List α} (hP : Spanned P span) (h : Reads P item)
    (hread : semicolons n item ts = (more, rest)) (hts : Ascending ts) :
    Ascending rest ∧ Row P (beginOf ts) (beginOf rest) more := by
  rcases semicolons_steps hread with ⟨first, left, others, hfirst, hfurther, rfl⟩ | ⟨-, rfl, rfl⟩
  · obtain ⟨hleft, ha⟩ := h hfirst hts
    obtain ⟨hrest, hothers⟩ := further_row hP h hfurther hleft
    exact ⟨hrest, .cons ha hothers⟩
  · exact ⟨hts, .nil (le_refl _)⟩

/-- Further members end where the last of them ends, or where they would have started. -/
theorem endOf_row {more : List α} {hi : Position} (hP : Spanned P span)
    (h : Row P (beginOf ts) hi more) :
    Row P (beginOf ts) (endOf (fun a => (span a).stop) more ts) more ∧
      beginOf ts ≤ endOf (fun a => (span a).stop) more ts ∧
      endOf (fun a => (span a).stop) more ts ≤ hi := by
  unfold endOf
  cases hlast : more.getLast? with
  | none =>
    have hnil : more = [] := List.getLast?_eq_none_iff.mp hlast
    subst hnil
    exact ⟨.nil (le_refl _), le_refl _, h.le hP⟩
  | some a =>
    obtain ⟨hrow, hle⟩ := h.tight hP hlast
    exact ⟨hrow, hrow.le hP, hle⟩

section Terms

variable {term : Reader Term} {factor : Reader Factor}

theorem termsOf_reads (h : Reads Term.In term) : Reads Terms.In (termsOf n term) := by
  intro ts terms rest hread hts
  obtain ⟨first, left, more, hfirst, hmore, rfl⟩ := termsOf_steps hread
  obtain ⟨hleft, hin⟩ := h hfirst hts
  obtain ⟨hrest, hrow⟩ := further_row Term.spanned h hmore hleft
  obtain ⟨htight, hle, hhi⟩ := endOf_row Term.spanned hrow
  have hlt := Term.spanned.lt hin
  exact ⟨hrest, ⟨le_refl _, hlt.trans_le hle, hhi⟩, _, hin, termsIn_iff.mpr htight⟩

theorem poolOf_reads (h : Reads Term.In term) : Reads Pool.In (poolOf n term) := by
  intro ts pool rest hread hts
  obtain ⟨first, left, others, hfirst, hothers, rfl⟩ := poolOf_steps hread
  obtain ⟨hleft, hin⟩ := termsOf_reads h hfirst hts
  obtain ⟨hrest, hrow⟩ := further_row Terms.spanned (termsOf_reads h) hothers hleft
  exact ⟨hrest, Pool.in_iff.mpr (.cons hin hrow)⟩

theorem Pool.lt {lo hi : Position} {pool : Pool} (h : pool.In lo hi) : lo < hi := by
  obtain ⟨first, others⟩ := pool
  rw [Pool.in_iff] at h
  cases h with
  | cons ha h => exact (Terms.spanned.lt ha).trans_le (h.le Terms.spanned)

/-- A pool that may be missing lies where it was looked for. -/
theorem optional_pool {pool : Option Pool} (h : Reads Term.In term)
    (hread : optional (poolOf n term) ts = (pool, rest)) (hts : Ascending ts) :
    Ascending rest ∧ beginOf ts ≤ beginOf rest ∧
      ∀ found ∈ pool, found.In (beginOf ts) (beginOf rest) := by
  rcases optional_steps hread with ⟨found, hpool, rfl⟩ | ⟨-, rfl, rfl⟩
  · obtain ⟨hrest, hin⟩ := poolOf_reads h hpool hts
    exact ⟨hrest, (Pool.lt hin).le, by simpa using hin⟩
  · exact ⟨hts, le_refl _, by simp⟩

/-- Arguments lie between their parentheses. -/
theorem argumentsOf_reads (h : Reads Term.In term) :
    Reads (fun lo hi (x : Option Pool × Position) =>
      lo < x.2 ∧ x.2 ≤ hi ∧ ∀ pool ∈ x.1, pool.In lo x.2) (argumentsOf n term) := by
  intro ts ⟨pool, stop⟩ rest hread hts
  obtain ⟨opened, ts₁, ts₂, hopening, hpool, hclosing⟩ := argumentsOf_steps hread
  obtain ⟨hrest₁, hlt⟩ := (punct_ends .opening).advances hopening hts
  obtain ⟨hrest₂, hle, hin⟩ := optional_pool h hpool hrest₁
  obtain ⟨hrest₃, hstop, hhi⟩ := punct_ends .closing hclosing hrest₂
  refine ⟨hrest₃, (hlt.trans_le hle).trans hstop, hhi, ?_⟩
  intro found hfound
  exact Pool.mono (hin found hfound) hlt.le hstop.le

theorem tupleOf_reads (h : Reads Term.In term) : Reads Factor.In (tupleOf n term) := by
  intro ts a rest hread hts
  obtain ⟨opened, ts₁, pool, ts₂, comma, ts₃, stop, hopening, hpool, hcomma, hclosing, rfl⟩ :=
    tupleOf_steps hread
  obtain ⟨hrest₁, hlt⟩ := (punct_ends .opening).advances hopening hts
  obtain ⟨hrest₂, hle, hin⟩ := optional_pool h hpool hrest₁
  obtain ⟨hrest₃, hcomma⟩ := optional_le (punct_ends .comma).advances hcomma hrest₂
  obtain ⟨hrest₄, hstop, hhi⟩ := punct_ends .closing hclosing hrest₃
  have hwithin : Within (beginOf ts) (beginOf rest) ⟨beginOf ts, stop⟩ :=
    ⟨le_refl _, ((hlt.trans_le hle).trans_le hcomma).trans hstop, hhi⟩
  cases pool with
  | none => exact ⟨hrest₄, hwithin⟩
  | some found =>
    exact ⟨hrest₄, hwithin, Pool.mono (hin found rfl) hlt.le (hcomma.trans hstop.le)⟩

theorem absoluteOf_reads (h : Reads Term.In term) : Reads Factor.In (absoluteOf term) := by
  intro ts a rest hread hts
  obtain ⟨opened, ts₁, inner, ts₂, stop, hopening, hinner, hclosing, rfl⟩ := absoluteOf_steps hread
  obtain ⟨hrest₁, hlt⟩ := (punct_ends .bar).advances hopening hts
  obtain ⟨hrest₂, hin⟩ := h hinner hrest₁
  obtain ⟨hrest₃, hstop, hhi⟩ := punct_ends .bar hclosing hrest₂
  have hmiddle := Term.spanned.lt hin
  exact ⟨hrest₃, ⟨le_refl _, (hlt.trans hmiddle).trans hstop, hhi⟩,
    Term.spanned.mono hin hlt.le hstop.le⟩

theorem functionOf_reads (h : Reads Term.In term) : Reads Factor.In (functionOf n term) := by
  intro ts a rest hread hts
  obtain ⟨name, left, hname, hfound⟩ := functionOf_steps hread
  obtain ⟨hleft, hlt⟩ := identifier_advances hname hts
  rcases hfound with ⟨pool, stop, harguments, rfl⟩ | ⟨-, rfl, rfl⟩
  · obtain ⟨hrest, hstop, hhi, hin⟩ := argumentsOf_reads h harguments hleft
    have hwithin : Within (beginOf ts) (beginOf rest) ⟨beginOf ts, stop⟩ :=
      ⟨le_refl _, hlt.trans hstop, hhi⟩
    cases pool with
    | none => exact ⟨hrest, hwithin⟩
    | some found => exact ⟨hrest, hwithin, Pool.mono (hin found rfl) hlt.le (le_refl _)⟩
  · exact ⟨hleft, le_refl _, hlt, le_refl _⟩

theorem simpleFactor_reads : Reads Factor.In simpleFactor := by
  intro ts a rest hread hts
  obtain ⟨lexeme, begin, stop, rfl, hfound⟩ := simpleFactor_steps hread
  have hne : lexeme ≠ .finish := by
    rintro rfl
    simp at hfound
  obtain ⟨hlt, hle, hrest⟩ := hts.tail hne
  have hwithin : Within begin (beginOf rest) ⟨begin, stop⟩ := ⟨le_refl _, hlt, hle⟩
  rcases hfound with ⟨text, -, rfl⟩ | ⟨text, -, rfl⟩ | ⟨word, -, -, rfl⟩ <;> exact ⟨hrest, hwithin⟩

theorem negationOf_reads (h : Reads Factor.In factor) : Reads Factor.In (negationOf factor) := by
  intro ts a rest hread hts
  obtain ⟨minus, left, inner, hminus, hinner, rfl⟩ := negationOf_steps hread
  obtain ⟨hrest₁, hlt⟩ := (punct_ends .minus).advances hminus hts
  obtain ⟨hrest₂, hin⟩ := h hinner hrest₁
  have hwithin := Factor.spanned.within hin
  exact ⟨hrest₂, ⟨le_refl _, (hlt.trans_le hwithin.left).trans hwithin.proper, hwithin.right⟩,
    Factor.spanned.move hin (hwithin.tight.mono hlt.le (le_refl _))⟩

theorem operandOf_reads (h : Reads Factor.In factor) :
    Reads (fun lo hi (x : Punct × Factor) => x.2.In lo hi) (operandOf factor) := by
  intro ts ⟨operator, operand⟩ rest hread hts
  obtain ⟨left, hoperator, hoperand⟩ := operandOf_steps hread
  obtain ⟨hrest₁, hlt⟩ := punctWith_advances Punct.isArithmetic hoperator hts
  obtain ⟨hrest₂, hin⟩ := h hoperand hrest₁
  exact ⟨hrest₂, Factor.spanned.mono hin hlt.le (le_refl _)⟩

theorem chainOf_reads (h : Reads Factor.In factor) : Reads Term.In (chainOf n factor) := by
  intro ts a rest hread hts
  obtain ⟨first, left, more, hfirst, hmore, rfl⟩ := chainOf_steps hread
  obtain ⟨hrest₁, hin⟩ := h hfirst hts
  obtain ⟨hrest, hrow⟩ := many_row (operandOf_reads h) hmore hrest₁
  obtain ⟨htight, hle, hhi⟩ := endOf_row operand_spanned hrow
  have hlt := Factor.spanned.lt hin
  exact ⟨hrest, ⟨le_refl _, hlt.trans_le hle, hhi⟩, _, hin, operandsIn_iff.mpr htight⟩

end Terms

theorem term_factor_reads (n : Nat) : Reads Term.In (term n) ∧ Reads Factor.In (factor n) := by
  induction n with
  | zero =>
    constructor
    · intro ts a rest hread
      simp [term] at hread
    · intro ts a rest hread
      simp [factor] at hread
  | succ n ih =>
    obtain ⟨hterm, hfactor⟩ := ih
    constructor
    · rw [term]
      exact chainOf_reads hfactor
    · rw [factor]
      exact (negationOf_reads hfactor).or <| (tupleOf_reads hterm).or <|
        (absoluteOf_reads hterm).or <| (functionOf_reads hterm).or simpleFactor_reads

theorem term_reads (n : Nat) : Reads Term.In (term n) := (term_factor_reads n).1

end AspAtlas.Surface
