import AspAtlas.Proofs.Location.Order
import AspAtlas.Surface.Tree
/-!
Where the parts of a construct lie: inside its span, one behind the other, and none is empty.
-/
namespace AspAtlas.Surface

/-- A span that lies between two positions and is not empty. -/
structure Within (lo hi : Position) (span : Span) : Prop where
  left : lo ≤ span.begin
  proper : span.begin < span.stop
  right : span.stop ≤ hi

namespace Within

variable {lo hi lo' hi' : Position} {span : Span}

theorem lt (h : Within lo hi span) : lo < hi := (h.left.trans_lt h.proper).trans_le h.right

theorem mono (h : Within lo hi span) (hlo : lo' ≤ lo) (hhi : hi ≤ hi') : Within lo' hi' span :=
  ⟨hlo.trans h.left, h.proper, h.right.trans hhi⟩

theorem tight (h : Within lo hi span) : Within lo span.stop span := ⟨h.left, h.proper, le_refl _⟩

end Within

/-- A way to lie between two positions that depends on where the span of a construct lies, and
otherwise on the construct alone. -/
structure Spanned {α : Type} (P : Position → Position → α → Prop) (span : α → Span) : Prop where
  within : ∀ {lo hi a}, P lo hi a → Within lo hi (span a)
  move : ∀ {lo hi lo' hi' a}, P lo hi a → Within lo' hi' (span a) → P lo' hi' a

namespace Spanned

variable {α : Type} {P : Position → Position → α → Prop} {span : α → Span}
    {lo hi lo' hi' : Position}
  {a : α}

theorem lt (hP : Spanned P span) (h : P lo hi a) : lo < hi := (hP.within h).lt

theorem mono (hP : Spanned P span) (h : P lo hi a) (hlo : lo' ≤ lo) (hhi : hi ≤ hi') :
    P lo' hi' a :=
  hP.move h ((hP.within h).mono hlo hhi)

theorem tight (hP : Spanned P span) (h : P lo hi a) : P lo (span a).stop a :=
  hP.move h (hP.within h).tight

/-- Lying inside a span is lying there with the span, and whatever the construct asks for itself. -/
theorem of_and {Q : α → Prop} : Spanned (fun lo hi a => Within lo hi (span a) ∧ Q a) span :=
  ⟨fun h => h.1, fun h hw => ⟨hw, h.2⟩⟩

end Spanned

/-- Some constructs lie one behind the other between two positions. -/
inductive Row {α : Type} (P : Position → Position → α → Prop) : Position → Position → List α → Prop
  | nil {lo hi : Position} (h : lo ≤ hi) : Row P lo hi []
  | cons {lo mid hi : Position} {a : α} {rest : List α} (ha : P lo mid a) (h : Row P mid hi rest) :
      Row P lo hi (a :: rest)

namespace Row

variable {α : Type} {P : Position → Position → α → Prop} {span : α → Span}
    {lo mid hi lo' hi' : Position}
  {a : α} {xs : List α}

theorem le (hP : Spanned P span) (h : Row P lo hi xs) : lo ≤ hi := by
  induction h with
  | nil h => exact h
  | cons ha _ ih => exact (hP.lt ha).le.trans ih

theorem mono (hP : Spanned P span) (h : Row P lo hi xs) (hlo : lo' ≤ lo) (hhi : hi ≤ hi') :
    Row P lo' hi' xs := by
  induction h generalizing lo' with
  | nil h => exact .nil ((hlo.trans h).trans hhi)
  | cons ha _ ih => exact .cons (hP.mono ha hlo (le_refl _)) (ih (le_refl _) hhi)

theorem singleton (h : P lo hi a) : Row P lo hi [a] := .cons h (.nil (le_refl _))

theorem of_mem (hP : Spanned P span) (h : Row P lo hi xs) (ha : a ∈ xs) : P lo hi a := by
  induction h with
  | nil => cases ha
  | @cons lo mid hi b rest hb hrest ih =>
    have hle := hrest.le hP
    rcases List.mem_cons.mp ha with rfl | ha
    · exact hP.mono hb (le_refl _) hle
    · exact hP.mono (ih ha) (hP.lt hb).le (le_refl _)

/-- In a row every construct begins and ends before those behind it begin. -/
theorem pairwise_apart (hP : Spanned P span) (h : Row P lo hi xs) :
    xs.Pairwise fun a b => (span a).begin < (span b).begin ∧ (span a).stop ≤ (span b).begin := by
  induction h with
  | nil => exact .nil
  | @cons lo mid hi a rest ha hrest ih =>
    refine List.pairwise_cons.mpr ⟨fun b hb => ?_, ih⟩
    have hfirst := hP.within ha
    have hlater := hP.within (hrest.of_mem hP hb)
    have hapart : (span a).stop ≤ (span b).begin := hfirst.right.trans hlater.left
    exact ⟨hfirst.proper.trans_le hapart, hapart⟩

/-- A row that is not empty ends where its last member ends. -/
theorem tight (hP : Spanned P span) (h : Row P lo hi xs) (hlast : xs.getLast? = some a) :
    Row P lo (span a).stop xs ∧ (span a).stop ≤ hi := by
  induction h with
  | nil => simp at hlast
  | @cons lo mid hi b rest hb hrest ih =>
    cases rest with
    | nil =>
      simp only [List.getLast?_singleton, Option.some.injEq] at hlast
      subst hlast
      exact ⟨singleton (hP.tight hb), (hP.within hb).right.trans (hrest.le hP)⟩
    | cons c rest =>
      rw [List.getLast?_cons_cons] at hlast
      obtain ⟨hrow, hle⟩ := ih hlast
      exact ⟨.cons hb hrow, hle⟩

end Row

mutual

/-- A chain holds its operands in order. -/
def Term.In : Position → Position → Term → Prop
  | lo, hi, .chain span first rest =>
    Within lo hi span ∧ ∃ mid, first.In span.begin mid ∧ operandsIn mid span.stop rest

/-- Further operands lie one behind the other. -/
def operandsIn : Position → Position → List (Punct × Factor) → Prop
  | lo, hi, [] => lo ≤ hi
  | lo, hi, (_, operand) :: rest => ∃ mid, operand.In lo mid ∧ operandsIn mid hi rest

/-- An operand holds its parts. -/
def Factor.In : Position → Position → Factor → Prop
  | lo, hi, .negation span inner => Within lo hi span ∧ inner.In span.begin span.stop
  | lo, hi, .tuple span none => Within lo hi span
  | lo, hi, .tuple span (some pool) => Within lo hi span ∧ pool.In span.begin span.stop
  | lo, hi, .absolute span inner => Within lo hi span ∧ inner.In span.begin span.stop
  | lo, hi, .function span _ none => Within lo hi span
  | lo, hi, .function span _ (some pool) => Within lo hi span ∧ pool.In span.begin span.stop
  | lo, hi, .var span _ => Within lo hi span
  | lo, hi, .constant span _ => Within lo hi span

/-- The alternatives of a pool lie one behind the other. -/
def Pool.In : Position → Position → Pool → Prop
  | lo, hi, .alternatives first others => ∃ mid, first.In lo mid ∧ alternativesIn mid hi others

/-- Further alternatives lie one behind the other. -/
def alternativesIn : Position → Position → List Terms → Prop
  | lo, hi, [] => lo ≤ hi
  | lo, hi, terms :: rest => ∃ mid, terms.In lo mid ∧ alternativesIn mid hi rest

/-- A list of terms holds them in order. -/
def Terms.In : Position → Position → Terms → Prop
  | lo, hi, .list span first rest =>
    Within lo hi span ∧ ∃ mid, first.In span.begin mid ∧ termsIn mid span.stop rest

/-- Further terms lie one behind the other. -/
def termsIn : Position → Position → List Term → Prop
  | lo, hi, [] => lo ≤ hi
  | lo, hi, term :: rest => ∃ mid, term.In lo mid ∧ termsIn mid hi rest

end

variable {lo hi : Position}

theorem operandsIn_iff {rest : List (Punct × Factor)} :
    operandsIn lo hi rest ↔ Row (fun lo hi x => x.2.In lo hi) lo hi rest := by
  induction rest generalizing lo with
  | nil =>
    rw [operandsIn]
    exact ⟨.nil, fun | .nil h => h⟩
  | cons x rest ih =>
    obtain ⟨operator, operand⟩ := x
    simp only [operandsIn, ih]
    exact ⟨fun ⟨_, ha, h⟩ => .cons ha h, fun | .cons ha h => ⟨_, ha, h⟩⟩

theorem alternativesIn_iff {rest : List Terms} :
    alternativesIn lo hi rest ↔ Row Terms.In lo hi rest := by
  induction rest generalizing lo with
  | nil =>
    rw [alternativesIn]
    exact ⟨.nil, fun | .nil h => h⟩
  | cons terms rest ih =>
    simp only [alternativesIn, ih]
    exact ⟨fun ⟨_, ha, h⟩ => .cons ha h, fun | .cons ha h => ⟨_, ha, h⟩⟩

theorem termsIn_iff {rest : List Term} : termsIn lo hi rest ↔ Row Term.In lo hi rest := by
  induction rest generalizing lo with
  | nil =>
    rw [termsIn]
    exact ⟨.nil, fun | .nil h => h⟩
  | cons term rest ih =>
    simp only [termsIn, ih]
    exact ⟨fun ⟨_, ha, h⟩ => .cons ha h, fun | .cons ha h => ⟨_, ha, h⟩⟩

theorem Pool.in_iff {first : Terms} {others : List Terms} :
    (Pool.alternatives first others).In lo hi ↔ Row Terms.In lo hi (first :: others) := by
  simp only [Pool.In, alternativesIn_iff]
  exact ⟨fun ⟨_, ha, h⟩ => .cons ha h, fun | .cons ha h => ⟨_, ha, h⟩⟩

theorem Term.spanned : Spanned (fun lo hi t => Term.In lo hi t) Term.span where
  within {lo hi t} h := by
    cases t with
    | chain span first rest => exact h.1
  move {lo hi lo' hi' t} h hw := by
    cases t with
    | chain span first rest => exact ⟨hw, h.2⟩

theorem Terms.spanned : Spanned (fun lo hi t => Terms.In lo hi t) Terms.span where
  within {lo hi t} h := by
    cases t with
    | list span first rest => exact h.1
  move {lo hi lo' hi' t} h hw := by
    cases t with
    | list span first rest => exact ⟨hw, h.2⟩

theorem Factor.spanned : Spanned (fun lo hi f => Factor.In lo hi f) Factor.span where
  within {lo hi f} h := by
    match f, h with
    | .negation _ _, h | .tuple _ (some _), h | .absolute _ _, h | .function _ _ (some _), h =>
      exact h.1
    | .tuple _ none, h | .function _ _ none, h | .var _ _, h | .constant _ _, h => exact h
  move {lo hi lo' hi' f} h hw := by
    match f, h with
    | .negation _ _, h | .tuple _ (some _), h | .absolute _ _, h | .function _ _ (some _), h =>
      exact ⟨hw, h.2⟩
    | .tuple _ none, h | .function _ _ none, h | .var _ _, h | .constant _ _, h => exact hw

/-- An operand lies where it lies with the operator in front of it. -/
theorem operand_spanned :
    Spanned (fun lo hi (x : Punct × Factor) => x.2.In lo hi) (fun x => x.2.span) :=
  ⟨fun h => Factor.spanned.within h, fun h => Factor.spanned.move h⟩

theorem Pool.mono {pool : Pool} {lo' hi' : Position} (h : pool.In lo hi) (hlo : lo' ≤ lo)
    (hhi : hi ≤ hi') : pool.In lo' hi' := by
  obtain ⟨first, others⟩ := pool
  rw [Pool.in_iff] at h ⊢
  exact h.mono Terms.spanned hlo hhi

/-- A predicate holds its arguments. -/
def Atom.In (lo hi : Position) (a : Atom) : Prop :=
  Within lo hi a.span ∧ ∀ pool ∈ a.pool, pool.In a.span.begin a.span.stop

/-- An assertion holds its terms, or is a predicate. -/
def Assertion.In (lo hi : Position) : Assertion → Prop
  | .boolean span _ => Within lo hi span
  | .comparison span left _ right =>
    Within lo hi span ∧ ∃ mid, left.In span.begin mid ∧ right.In mid span.stop
  | .symbolic atom => atom.In lo hi

/-- A literal holds its assertion. -/
def Literal.In (lo hi : Position) (l : Literal) : Prop :=
  Within lo hi l.span ∧ l.assertion.In l.span.begin l.span.stop

/-- A conditional literal holds its literal, then its condition. -/
def Conditional.In (lo hi : Position) (c : Conditional) : Prop :=
  Within lo hi c.span ∧
    ∃ mid, c.literal.In c.span.begin mid ∧ Row Literal.In mid c.span.stop c.condition

/-- A bound holds its term. -/
def Bound.In (lo hi : Position) (b : Bound) : Prop :=
  Within lo hi b.span ∧ b.term.In b.span.begin b.span.stop

/-- An aggregate element holds its terms, then its condition. -/
def AggregateElement.In (lo hi : Position) (e : AggregateElement) : Prop :=
  Within lo hi e.span ∧
    ∃ mid, Row (fun lo hi t => Terms.In lo hi t) e.span.begin mid e.terms.toList ∧
      Row Literal.In mid e.span.stop e.condition

/-- An aggregate holds its left bound, its elements and its right bound. -/
def Aggregate.In (lo hi : Position) (a : Aggregate) : Prop :=
  Within lo hi a.span ∧
    ∃ m₁ m₂, Row Bound.In a.span.begin m₁ a.left.toList ∧ Row AggregateElement.In m₁ m₂ a.elements ∧
      Row Bound.In m₂ a.span.stop a.right.toList

/-- The span of a body element. -/
def BodyElement.span : BodyElement → Span
  | .conditional element => element.span
  | .aggregate element => element.span

/-- A body element is a conditional literal or an aggregate. -/
def BodyElement.In (lo hi : Position) : BodyElement → Prop
  | .conditional element => element.In lo hi
  | .aggregate element => element.In lo hi

/-- A choice holds its left bound, its elements and its right bound. -/
def Choice.In (lo hi : Position) (c : Choice) : Prop :=
  Within lo hi c.span ∧
    ∃ m₁ m₂, Row Bound.In c.span.begin m₁ c.left.toList ∧ Row Conditional.In m₁ m₂ c.elements ∧
      Row Bound.In m₂ c.span.stop c.right.toList

/-- The span of a head. -/
def Head.span : Head → Span
  | .choice c => c.span
  | .disjunction span _ _ => span

/-- A head is a choice, or holds the members of a disjunction. -/
def Head.In (lo hi : Position) : Head → Prop
  | .choice c => c.In lo hi
  | .disjunction span first rest =>
    Within lo hi span ∧ Row Conditional.In span.begin span.stop (first :: rest)

/-- A weight holds its term, its priority and its tuple. -/
def Weight.In (lo hi : Position) (w : Weight) : Prop :=
  Within lo hi w.span ∧
    ∃ m₁ m₂, w.weight.In w.span.begin m₁ ∧
      Row (fun lo hi t => Term.In lo hi t) m₁ m₂ w.priority.toList ∧
      Row (fun lo hi t => Term.In lo hi t) m₂ w.span.stop w.terms

/-- An optimised element holds its weight, then its condition. -/
def OptimizeElement.In (lo hi : Position) (e : OptimizeElement) : Prop :=
  Within lo hi e.span ∧
    ∃ mid, e.weight.In e.span.begin mid ∧ Row Literal.In mid e.span.stop e.condition

/-- The span of a statement. -/
def Statement.span : Statement → Span
  | .includes span _ | .constant span _ _ | .defined span _ _ | .showAll span
  | .showSignature span _ _ | .showTerm span _ _ | .program span _ | .external span _ _ _
  | .optimize span _ _ | .weak span _ _ | .rule span _ _ => span

/-- The parts of a statement lie in the order in which they are written. -/
def Statement.Inside : Statement → Prop
  | .includes _ _ | .defined _ _ _ | .showAll _ | .showSignature _ _ _ | .program _ _ => True
  | .constant span _ value => value.In span.begin span.stop
  | .showTerm span term body =>
    ∃ mid, term.In span.begin mid ∧ Row BodyElement.In mid span.stop body
  | .external span atom condition type =>
    ∃ m₁ m₂, atom.In span.begin m₁ ∧ Row Literal.In m₁ m₂ condition ∧
      Row (fun lo hi t => Term.In lo hi t) m₂ span.stop type.toList
  | .optimize span _ elements => Row OptimizeElement.In span.begin span.stop elements
  | .weak span body weight =>
    ∃ mid, Row BodyElement.In span.begin mid body ∧ weight.In mid span.stop
  | .rule span head body =>
    ∃ mid, Row Head.In span.begin mid head.toList ∧ Row BodyElement.In mid span.stop body

/-- A statement holds its parts. -/
def Statement.In (lo hi : Position) (s : Statement) : Prop := Within lo hi s.span ∧ s.Inside

theorem Atom.spanned : Spanned Atom.In Atom.span := .of_and

theorem Literal.spanned : Spanned Literal.In Literal.span := .of_and

theorem Conditional.spanned : Spanned Conditional.In Conditional.span := .of_and

theorem Bound.spanned : Spanned Bound.In Bound.span := .of_and

theorem AggregateElement.spanned : Spanned AggregateElement.In AggregateElement.span := .of_and

theorem Aggregate.spanned : Spanned Aggregate.In Aggregate.span := .of_and

theorem Choice.spanned : Spanned Choice.In Choice.span := .of_and

theorem Weight.spanned : Spanned Weight.In Weight.span := .of_and

theorem OptimizeElement.spanned : Spanned OptimizeElement.In OptimizeElement.span := .of_and

theorem Assertion.spanned : Spanned Assertion.In Assertion.span where
  within {lo hi a} h := by
    cases a with
    | boolean span value => exact h
    | comparison span left operator right => exact h.1
    | symbolic atom => exact Atom.spanned.within h
  move {lo hi lo' hi' a} h hw := by
    cases a with
    | boolean span value => exact hw
    | comparison span left operator right => exact ⟨hw, h.2⟩
    | symbolic atom => exact Atom.spanned.move h hw

theorem BodyElement.spanned : Spanned BodyElement.In BodyElement.span where
  within {lo hi b} h := by
    cases b with
    | conditional element => exact Conditional.spanned.within h
    | aggregate element => exact Aggregate.spanned.within h
  move {lo hi lo' hi' b} h hw := by
    cases b with
    | conditional element => exact Conditional.spanned.move h hw
    | aggregate element => exact Aggregate.spanned.move h hw

theorem Head.spanned : Spanned Head.In Head.span where
  within {lo hi head} h := by
    cases head with
    | choice c => exact Choice.spanned.within h
    | disjunction span first rest => exact h.1
  move {lo hi lo' hi' head} h hw := by
    cases head with
    | choice c => exact Choice.spanned.move h hw
    | disjunction span first rest => exact ⟨hw, h.2⟩

end AspAtlas.Surface
