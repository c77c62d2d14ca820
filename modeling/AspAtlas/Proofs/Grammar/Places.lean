import AspAtlas.Grammar.Derivation
import AspAtlas.Proofs.Surface.Lexing
/-!
Places of a text and the tokens from there on. Blanks and comments in front make no difference to
the tokens, and behind them the first token is the unit that stands there.
-/
namespace AspAtlas.Grammar

open Surface

variable {p : Place} {used rest : List Char}

/-- The tokens from a place on. -/
def Place.tokens (p : Place) : List Token := lex p.position p.rest

@[simp] theorem Place.position_move : (p.move used rest).position = advanceBy p.position used := rfl

@[simp] theorem Place.rest_move : (p.move used rest).rest = rest := rfl

theorem Place.textTo_move (h : p.rest = used ++ rest) :
    p.textTo (p.move used rest) = String.ofList used := by
  simp [textTo, h]

/-- A larger bound skips no more. -/
theorem Place.skipUpTo_eq_skip {n : Nat} (h : p.rest.length ≤ n) : p.skipUpTo n = p.skip := by
  have bound : ∀ m n (p : Place), p.rest.length ≤ m → p.rest.length ≤ n →
      p.skipUpTo m = p.skipUpTo n := by
    intro m
    induction m with
    | zero =>
      intro n p hm _
      have hnil : p.rest = [] := List.length_eq_zero_iff.mp (Nat.le_zero.mp hm)
      cases n with
      | zero => rfl
      | succ n => simp [skipUpTo, hnil, gap?]
    | succ m ih =>
      intro n p hm hn
      cases n with
      | zero =>
        have hnil : p.rest = [] := List.length_eq_zero_iff.mp (Nat.le_zero.mp hn)
        simp [skipUpTo, hnil, gap?]
      | succ n =>
        simp only [skipUpTo]
        cases hgap : gap? p.rest with
        | none => rfl
        | some found =>
          obtain ⟨used, rest⟩ := found
          obtain ⟨hsplit, hused⟩ := gap?_split hgap
          have hlength := congrArg List.length hsplit
          have hpos := List.length_pos_iff.mpr hused
          rw [List.length_append] at hlength
          exact ih n (p.move used rest) (by simp; omega) (by simp; omega)
  exact bound n p.rest.length p h (Nat.le_refl _)

theorem Place.skip_of_gap (h : gap? p.rest = some (used, rest)) :
    p.skip = (p.move used rest).skip := by
  obtain ⟨hsplit, hused⟩ := gap?_split h
  have hpos := List.length_pos_iff.mpr hused
  obtain ⟨n, hn⟩ : ∃ n, p.rest.length = n + 1 := by
    refine ⟨p.rest.length - 1, ?_⟩
    rw [hsplit, List.length_append]
    omega
  have hlength := congrArg List.length hsplit
  rw [List.length_append] at hlength
  rw [skip, hn, skipUpTo, h]
  exact skipUpTo_eq_skip (by simp; omega)

theorem Place.skip_of_no_gap (h : gap? p.rest = none) : p.skip = p := by
  unfold skip
  cases p.rest.length with
  | zero => rfl
  | succ n => rw [skipUpTo, h]

/-- What holds at a place without gap, and in front of a gap when it
holds behind, holds everywhere. -/
theorem Place.gap_induction {motive : Place → Prop}
    (gap : ∀ p used rest, gap? p.rest = some (used, rest) → motive (p.move used rest) → motive p)
    (ready : ∀ p, gap? p.rest = none → motive p) (p : Place) : motive p := by
  induction hn : p.rest.length using Nat.strongRecOn generalizing p with
  | _ n ih =>
    subst hn
    cases hgap : gap? p.rest with
    | none => exact ready p hgap
    | some found =>
      obtain ⟨used, rest⟩ := found
      obtain ⟨hsplit, hused⟩ := gap?_split hgap
      have hpos := List.length_pos_iff.mpr hused
      refine gap p used rest hgap (ih _ ?_ _ rfl)
      rw [hsplit, List.length_append, rest_move]
      omega

@[simp] theorem Place.gap?_skip (p : Place) : gap? p.skip.rest = none := by
  induction p using Place.gap_induction with
  | gap p used rest hgap ih => rwa [skip_of_gap hgap]
  | ready p hgap => rwa [skip_of_no_gap hgap]

@[simp] theorem Place.skip_skip (p : Place) : p.skip.skip = p.skip := skip_of_no_gap p.gap?_skip

theorem Place.pause_of_no_gap (h : gap? p.rest = none) : p.pause false = p := skip_of_no_gap h

theorem Place.pause_skip (p : Place) : p.skip.pause false = p.skip := p.skip_skip

@[simp] theorem Place.tokens_skip (p : Place) : p.skip.tokens = p.tokens := by
  induction p using Place.gap_induction with
  | gap p used rest hgap ih =>
    rw [skip_of_gap hgap, ih, tokens, tokens, lex_gap p.position hgap]
    rfl
  | ready p hgap => rw [skip_of_no_gap hgap]

theorem Place.tokens_ne_nil (p : Place) : p.tokens ≠ [] := lex_ne_nil p.position p.rest

/-- The first unit behind the gap at a place, and the place behind that unit. -/
inductive Place.Front (p : Place) : Prop
  | finish (hrest : p.skip.rest = []) (h : p.tokens = [⟨.finish, p.skip.position, p.skip.position⟩])
  | unit {c : Char} {cs used rest : List Char} {lexeme : Lexeme} (hrest : p.skip.rest = c :: cs)
      (hscan : scan c cs = (lexeme, used, rest))
      (h : p.tokens = ⟨lexeme, p.skip.position, (p.skip.move used rest).position⟩ ::
        (p.skip.move used rest).tokens)

theorem Place.front (p : Place) : p.Front := by
  cases hrest : p.skip.rest with
  | nil =>
    refine .finish hrest ?_
    rw [← tokens_skip, tokens, hrest]
    rfl
  | cons c cs =>
    rcases hscan : scan c cs with ⟨lexeme, used, rest⟩
    refine .unit hrest hscan ?_
    have hgap := p.gap?_skip
    rw [hrest] at hgap
    rw [← tokens_skip, tokens, hrest, lex_scan _ hgap hscan]
    rfl

theorem Place.beginOf_tokens (p : Place) : beginOf p.tokens = p.skip.position := by
  cases p.front with
  | finish hrest h => rw [h, beginOf]
  | unit hrest hscan h => rw [h, beginOf]

section Spellings

variable {α : Type} {spelling : α → String} {table : List α} {entry : α} {cs : List Char}

/-- No entry of a table is the begin of one behind it. -/
def LongestFirst (spelling : α → String) (table : List α) : Prop :=
  table.Pairwise fun a b => ¬ (spelling a).toList <+: (spelling b).toList

theorem comparable {xs ys zs : List Char} (hx : xs <+: zs) (hy : ys <+: zs) :
    xs <+: ys ∨ ys <+: xs :=
  List.prefix_or_prefix_of_prefix hx hy

theorem longest?_eq_some_iff (h : LongestFirst spelling table) :
    longest? spelling table cs = some (entry, rest) ↔
      entry ∈ table ∧ cs = (spelling entry).toList ++ rest ∧
        ∀ other ∈ table, (spelling other).toList <+: cs →
          (spelling other).toList <+: (spelling entry).toList := by
  induction table with
  | nil => simp [longest?]
  | cons first table ih =>
    obtain ⟨hfirst, htable⟩ := List.pairwise_cons.mp h
    have hrest := ih htable
    rw [longest?, List.findSome?_cons]
    cases hlead : Text.afterLead? (spelling first).toList cs with
    | some left =>
      have hcs := Text.afterLead?_eq_some_iff.mp hlead
      simp only [Option.map_some, Option.some.injEq, Prod.mk.injEq]
      constructor
      · rintro ⟨rfl, rfl⟩
        refine ⟨List.mem_cons_self, hcs, ?_⟩
        intro other hother hprefix
        rcases List.mem_cons.mp hother with rfl | hother
        · exact List.prefix_rfl
        · rcases comparable hprefix ⟨left, hcs.symm⟩ with hle | hle
          · exact hle
          · exact absurd hle (hfirst other hother)
      · rintro ⟨hentry, hsplit, hmax⟩
        rcases List.mem_cons.mp hentry with rfl | hentry
        · exact ⟨rfl, List.append_cancel_left (hcs.symm.trans hsplit)⟩
        · exact absurd (hmax first List.mem_cons_self ⟨left, hcs.symm⟩) (hfirst entry hentry)
    | none =>
      have hnone : ¬ (spelling first).toList <+: cs := by
        rintro ⟨left, hleft⟩
        rw [Text.afterLead?_eq_some_iff.mpr hleft.symm] at hlead
        cases hlead
      simp only [Option.map_none]
      rw [← longest?, hrest]
      constructor
      · rintro ⟨hentry, hsplit, hmax⟩
        refine ⟨List.mem_cons_of_mem _ hentry, hsplit, ?_⟩
        intro other hother hprefix
        rcases List.mem_cons.mp hother with rfl | hother
        · exact absurd hprefix hnone
        · exact hmax other hother hprefix
      · rintro ⟨hentry, hsplit, hmax⟩
        rcases List.mem_cons.mp hentry with rfl | hentry
        · exact absurd ⟨rest, hsplit.symm⟩ hnone
        · exact ⟨hentry, hsplit, fun other hother => hmax other (List.mem_cons_of_mem _ hother)⟩

/-- A part of a table that has every entry which one of its own is the begin of. -/
structure UpwardClosed (spelling : α → String) (table part : List α) : Prop where
  sub : ∀ a ∈ part, a ∈ table
  sorted : LongestFirst spelling part
  longer : ∀ a ∈ part, ∀ b ∈ table, (spelling a).toList <+: (spelling b).toList → b ∈ part

/-- A text starts with an entry of such a part if the longest entry of the table is in it. -/
theorem UpwardClosed.longest?_eq [DecidableEq α] {part : List α}
    (h : UpwardClosed spelling table part) (htable : LongestFirst spelling table) (cs : List Char) :
    longest? spelling part cs = (longest? spelling table cs).filter
      fun found => found.1 ∈ part := by
  ext ⟨entry, rest⟩
  simp only [Option.filter_eq_some_iff, longest?_eq_some_iff h.sorted, longest?_eq_some_iff htable,
    decide_eq_true_eq]
  constructor
  · rintro ⟨hentry, hsplit, hmax⟩
    refine ⟨⟨h.sub entry hentry, hsplit, ?_⟩, hentry⟩
    intro other hother hprefix
    rcases comparable hprefix ⟨rest, hsplit.symm⟩ with hle | hle
    · exact hle
    · exact hmax other (h.longer entry hentry other hother hle) hprefix
  · rintro ⟨⟨-, hsplit, hmax⟩, hentry⟩
    exact ⟨hentry, hsplit, fun other hother => hmax other (h.sub other hother)⟩

theorem derives_text {inToken : Bool} {spelling : String} (rest : List Char)
    (h : Text.afterLead? spelling.toList p.rest = some rest) :
    Derives inToken (.text spelling) p (some (p.move spelling.toList rest, [])) := .text h

/-- Some spellings match the first of them that a text starts with. -/
theorem derives_spellings (spelling : α → String) (inToken : Bool) (table : List α) (p : Place) :
    Derives inToken (Expr.spellings (table.map spelling)) p
      ((longest? spelling table p.rest).map
        fun found => (p.move (spelling found.1).toList found.2, [])) := by
  induction table with
  | nil => exact .present (derives_text p.rest rfl)
  | cons first table ih =>
    have hfirst : Derives inToken (.text (spelling first)) p
        ((Text.afterLead? (spelling first).toList p.rest).map fun rest =>
          (p.move (spelling first).toList rest, [])) := by
      cases hlead : Text.afterLead? (spelling first).toList p.rest with
      | none => exact .noText hlead
      | some rest => exact .text hlead
    rw [longest?, List.findSome?_cons]
    cases hlead : Text.afterLead? (spelling first).toList p.rest with
    | some rest =>
      rw [hlead] at hfirst
      cases table with
      | nil => exact hfirst
      | cons second table => exact .left hfirst
    | none =>
      rw [hlead] at hfirst
      cases table with
      | nil => exact hfirst
      | cons second table => exact .right hfirst ih

end Spellings

end AspAtlas.Grammar
