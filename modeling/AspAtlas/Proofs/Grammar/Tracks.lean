import AspAtlas.Proofs.Grammar.Places
import AspAtlas.Surface.Reading
/-!
Readers of tokens and expressions of the grammar. A reader follows an expression if it fails exactly
where the expression fails, and otherwise leaves the tokens behind the place that the expression
leads to. One lemma for each way to combine them.
-/
namespace AspAtlas.Surface

open Grammar

variable {α β : Type}

/-- What a reading has to do with the place that an expression leads to,
and with the pairs it leaves. -/
abbrev View (α : Type) := α → Place → List Pair → Prop

/-- What a reading may leave at a place: fewer than `k` tokens, those of the place; or, where a dot
ends what is read, the second of two dots, which is a token of no place. -/
inductive Behind (k : Nat) (q : Place) : Bool → List Token → Prop
  | tokens {dotted : Bool} (hlt : q.tokens.length < k) : Behind k q dotted q.tokens
  | dot {cs : List Char} {stop : Position} {ts : List Token} (h : q.rest = '.' :: cs) :
      Behind k q true (⟨.punct .dot, q.position, stop⟩ :: ts)

/-- A reading at a place follows an expression there, and leaves what may be left there. -/
inductive Mirrors (dotted : Bool) (k : Nat) (e : Expr Rule) (p : Place) (Q : View α) :
    Option (α × List Token) → Prop
  | refused (h : Derives false e p.skip none) : Mirrors dotted k e p Q none
  | taken {a : α} {q : Place} {ps : List Pair} {ts : List Token}
      (h : Derives false e p.skip (some (q, ps))) (hview : Q a q ps)
      (hbehind : Behind k q dotted ts) : Mirrors dotted k e p Q (some (a, ts))

/-- As `Mirrors`, where what is left are the tokens behind the place. -/
abbrev Tracks (k : Nat) (e : Expr Rule) (p : Place) (Q : View α)
    (x : Option (α × List Token)) : Prop :=
  Mirrors false k e p Q x

/-- As `Mirrors`, where what is left may be the second of two dots. -/
abbrev TracksToDot (k : Nat) (e : Expr Rule) (p : Place) (Q : View α)
    (x : Option (α × List Token)) : Prop :=
  Mirrors true k e p Q x

variable {dotted : Bool} {k j : Nat} {a b e : Expr Rule} {p q : Place} {Q : View α} {R : View β}
  {ps : List Pair} {x y : Option (α × List Token)}

theorem Behind.mono {ts : List Token} (h : Behind j q dotted ts) (hk : j ≤ k) :
    Behind k q dotted ts := by
  cases h with
  | tokens hlt => exact .tokens (Nat.lt_of_lt_of_le hlt hk)
  | dot h => exact .dot h

namespace Mirrors

theorem mono (h : Mirrors dotted k e p Q x) (hk : k ≤ j) : Mirrors dotted j e p Q x := by
  cases h with
  | refused h => exact .refused h
  | taken h hview hbehind => exact .taken h hview (hbehind.mono hk)

theorem toDot (h : Tracks k e p Q x) : TracksToDot k e p Q x := by
  cases h with
  | refused h => exact .refused h
  | taken h hview hbehind =>
    obtain ⟨hlt⟩ := hbehind
    exact .taken h hview (.tokens hlt)

theorem imp {Q' : View α} (h : Mirrors dotted k e p Q x) (hQ : ∀ a q ps, Q a q ps → Q' a q ps) :
    Mirrors dotted k e p Q' x := by
  cases h with
  | refused h => exact .refused h
  | taken h hview hbehind => exact .taken h (hQ _ _ _ hview) hbehind

theorem map {F : α → β} (h : Mirrors dotted k e p Q x) (hF : ∀ a q ps, Q a q ps → R (F a) q ps) :
    Mirrors dotted k e p R (x.map fun found => (F found.1, found.2)) := by
  cases h with
  | refused h => exact .refused h
  | taken h hview hbehind => exact .taken h (hF _ _ _ hview) hbehind

/-- Where one part led somewhere, a sequence does what the other part does there. -/
theorem seq (ha : Derives false a p.skip (some (q, ps)))
    (h : Mirrors dotted k b q (fun r s qs => Q r s (ps ++ qs)) x) :
    Mirrors dotted k (.seq a b) p Q x := by
  cases h with
  | refused hb => exact .refused (.noSecond ha hb)
  | taken hb hview hbehind => exact .taken (.seq ha hb) hview hbehind

/-- A sequence fails with its first part, and goes on behind it otherwise. -/
theorem bind {f : α × List Token → Option (β × List Token)} (h : Tracks j a p Q x)
    (hnext : ∀ r q ps, Q r q ps → q.tokens.length < j →
      Mirrors dotted k b q (fun s z qs => R s z (ps ++ qs)) (f (r, q.tokens))) :
    Mirrors dotted k (.seq a b) p R (x.bind f) := by
  cases h with
  | refused h => exact .refused (.noFirst h)
  | taken h hview hbehind =>
    obtain ⟨hlt⟩ := hbehind
    exact .seq h (hnext _ _ _ hview hlt)

/-- A sequence made of a last part alone. -/
theorem last {f : α × List Token → Option (β × List Token)} (h : Mirrors dotted k a p Q x)
    (hlast : ∀ r q ps ts, Q r q ps → ∃ s, f (r, ts) = some (s, ts) ∧ R s q ps) :
    Mirrors dotted k a p R (x.bind f) := by
  cases h with
  | refused h => exact .refused h
  | @taken r q ps ts h hview hbehind =>
    obtain ⟨s, hf, hs⟩ := hlast _ _ _ ts hview
    rw [Option.bind_some, hf]
    exact .taken h hs hbehind

theorem right (ha : Derives false a p.skip none) (h : Mirrors dotted k b p Q x) :
    Mirrors dotted k (.alt a b) p Q x := by
  cases h with
  | refused hb => exact .refused (.right ha hb)
  | taken hb hview hbehind => exact .taken (.right ha hb) hview hbehind

theorem or (h : Mirrors dotted k a p Q x) (hother : Mirrors dotted k b p Q y) :
    Mirrors dotted k (.alt a b) p Q (x <|> y) := by
  cases h with
  | refused h => exact hother.right h
  | taken h hview hbehind => exact .taken (.left h) hview hbehind

/-- A rule does what its definition does. -/
theorem rule {r : Rule} {R : View α} (hr : (definition r).isToken = false)
    (h : Mirrors dotted k (definition r).body p R x)
    (hview : ∀ a q ps, R a q ps →
      Q a q [⟨r, ⟨beginOf p.tokens, q.position⟩, p.skip.textTo q, ps⟩]) :
    Mirrors dotted k (.rule r) p Q x := by
  have hbegin := p.beginOf_tokens
  cases h with
  | refused h =>
    refine .refused (.noRule ?_)
    rwa [hr]
  | taken h hR hbehind =>
    rw [← hr] at h
    refine .taken (.rule h) ?_ hbehind
    rw [← hbegin]
    exact hview _ _ _ hR

end Mirrors

/-- The view of a construct that may be missing. -/
inductive OptionView (Q : View α) (p : Place) : View (Option α)
  | missing : OptionView Q p none p.skip []
  | there {a : α} {q : Place} {ps : List Pair} (h : Q a q ps) : OptionView Q p (some a) q ps

theorem OptionView.pairs_nil {r : Option α} (hQ : ∀ r q ps, Q r q ps → ps = [])
    (h : OptionView Q p r q ps) : ps = [] := by
  cases h with
  | missing => rfl
  | there h => exact hQ _ _ _ h

/-- A part that may be missing always leads somewhere. -/
theorem Mirrors.optional {f : Reader α} (h : Tracks j e p Q (f p.tokens))
    (hp : p.tokens.length < j) :
    ∃ r q ps, Surface.optional f p.tokens = (r, q.tokens) ∧
      Derives false (.opt e) p.skip (some (q, ps)) ∧
      OptionView Q p r q ps ∧ q.tokens.length < j := by
  unfold Surface.optional
  generalize f p.tokens = x at h
  cases h with
  | refused h => exact ⟨none, p.skip, [], by simp, .missing h, .missing, by simpa using hp⟩
  | taken h hview hbehind =>
    obtain ⟨hlt⟩ := hbehind
    exact ⟨_, _, _, rfl, .there h, .there hview, hlt⟩

/-- The last part may be missing. -/
theorem Mirrors.missing {r : α} (h : Derives false e p.skip none) (hview : Q r p.skip [])
    (hp : p.tokens.length < k) : Mirrors dotted k (.opt e) p Q (some (r, p.tokens)) := by
  have hread : Mirrors dotted k (.opt e) p Q (some (r, p.skip.tokens)) :=
    .taken (.missing h) hview (.tokens (by simpa using hp))
  simpa using hread

theorem Mirrors.there {r : α} (h : Derives false e p.skip (some (q, ps))) (hview : Q r q ps)
    (hlt : q.tokens.length < k) : Mirrors dotted k (.opt e) p Q (some (r, q.tokens)) :=
  .taken (.there h) hview (.tokens hlt)

/-- The view of constructs one behind the other. -/
inductive ManyView (Q : View α) : List α → List Pair → Prop
  | nil : ManyView Q [] []
  | cons {a : α} {q : Place} {ps : List Pair} {more : List α} {qs : List Pair} (h : Q a q ps)
      (hmore : ManyView Q more qs) : ManyView Q (a :: more) (ps ++ qs)

/-- The view of a repetition at a place: it ends with its last member, or
with the gap at that place. -/
def Repeated (Q : View α) (p : Place) : View (List α) := fun more q ps =>
  ManyView Q more ps ∧ ∀ stop : α → Position, (∀ r q ps, Q r q ps → stop r = q.position) →
    q.position = endOf stop more p.tokens

theorem endOf_cons_of_ne_nil {stop : α → Position} {r : α} {more : List α} {ts us : List Token}
    (h : more ≠ []) : endOf stop (r :: more) ts = endOf stop more us := by
  obtain ⟨last, hlast⟩ : ∃ last, more.getLast? = some last := ⟨_, List.getLast?_eq_some_getLast h⟩
  simp [endOf, hlast, List.getLast?_cons]

/-- Reading one construct after another tracks a repetition. -/
theorem Mirrors.many {f : Reader α} {m n : Nat}
    (h : ∀ p : Place, p.tokens.length < m → Tracks p.tokens.length e p Q (f p.tokens))
    (hp : p.tokens.length < m) (hn : p.tokens.length ≤ n) :
    Tracks (p.tokens.length + 1) (.rep e) p (Repeated Q p) (some (many f n p.tokens)) := by
  induction n generalizing p with
  | zero =>
    have hpos := List.length_pos_iff.mpr p.tokens_ne_nil
    omega
  | succ n ih =>
    have hitem := h p hp
    unfold many
    generalize f p.tokens = x at hitem
    cases hitem with
    | refused hnone =>
      have hend (stop : α → Position) : p.skip.position = endOf stop [] p.tokens := by
        simp [endOf, Place.beginOf_tokens]
      have hread : Tracks (p.tokens.length + 1) (.rep e) p (Repeated Q p)
          (some ([], p.skip.tokens)) :=
        .taken (.never hnone) ⟨.nil, fun stop _ => hend stop⟩ (.tokens (by simp))
      simpa using hread
    | @taken r q ps _ hder hview hbehind =>
      obtain ⟨hlt⟩ := hbehind
      have hmore := ih (p := q) (by omega) (by omega)
      have hagain := h q (by omega)
      obtain ⟨n, rfl⟩ : ∃ i, n = i + 1 := by
        have hpos := List.length_pos_iff.mpr q.tokens_ne_nil
        exact ⟨n - 1, by omega⟩
      cases hfound : f q.tokens with
      | none =>
        rw [hfound] at hagain
        cases hagain with
        | refused hnone =>
          simp only [many, hfound]
          refine .taken (.last hder hnone) ⟨?_, fun stop hstop => ?_⟩ (.tokens (by omega))
          · have hone := ManyView.cons hview ManyView.nil
            rwa [List.append_nil] at hone
          · simp [endOf, hstop _ _ _ hview]
      | some found =>
        rw [hfound] at hagain
        have hne : (many f (n + 1) q.tokens).1 ≠ [] := by
          simp [many, hfound]
        simp only
        generalize many f (n + 1) q.tokens = more at hmore hne ⊢
        cases hagain with
        | taken hder' hview' hbehind' =>
        obtain ⟨hlt'⟩ := hbehind'
        cases hmore with
        | taken hrep hall hbehind'' =>
          obtain ⟨hlt''⟩ := hbehind''
          refine .taken (Q := Repeated Q p) (.again hder hder' hrep)
            ⟨.cons hview hall.1, fun stop hstop => ?_⟩ (.tokens (by omega))
          rw [hall.2 stop hstop]
          exact (endOf_cons_of_ne_nil hne).symm

end AspAtlas.Surface
