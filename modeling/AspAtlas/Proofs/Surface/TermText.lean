import AspAtlas.Proofs.Node.Rendering
import AspAtlas.Proofs.Surface.Gathering
import AspAtlas.Proofs.Surface.Proper
/-!
Texts of lowered terms. Each is written without superfluous parentheses and blanks, and so is each
term that stands below.
-/
namespace AspAtlas

namespace Node

variable {n m : Node} {f : Field} {P : Node → Prop}

/-- What stands right under a node has a property. -/
def AllItems (P : Node → Prop) (n : Node) : Prop := ∀ f, ∀ m ∈ n.items f, P m

theorem AllItems.leaf (h : n.fields = []) : n.AllItems P := by
  intro f m hm
  rw [items, h] at hm
  cases hm

theorem AllItems.withNode (h : n.AllItems P) (f : Field) (hm : P m) :
    (n.withNode f m).AllItems P := by
  intro g k hk
  rw [items_withNode] at hk
  split at hk
  · rwa [List.mem_singleton.mp hk]
  · exact h g k hk

theorem AllItems.withSequence {ms : List Node} (h : n.AllItems P) (f : Field)
    (hms : ∀ m ∈ ms, P m) : (n.withSequence f ms).AllItems P := by
  intro g k hk
  rw [items_withSequence] at hk
  split at hk
  · exact hms k hk
  · exact h g k hk

theorem AllItems.withNode? {x : Option Node} (h : n.AllItems P) (f : Field) (hx : ∀ m ∈ x, P m) :
    (n.withNode? f x).AllItems P := by
  cases x with
  | none => exact h
  | some m => exact h.withNode f (hx m rfl)

/-- A node whose text is that of a term without superfluous parentheses. -/
def WritesTerm (n : Node) : Prop :=
  ∃ ls, Surface.Written .chain ls ∧ n.render.toList = Surface.chars ls

/-- A node whose terms below are written as terms. What stands right under a
pool is a list of arguments. -/
def LegibleBelow (n : Node) : Prop :=
  ∀ f t, n.StandsUnder f t → f ≠ .pool → t.isTerm = true → t.WritesTerm

/-- A tree whose terms are written as terms. -/
structure Legible (n : Node) : Prop where
  writes : n.isTerm = true → n.WritesTerm
  below : n.LegibleBelow

/-- A term that is written as one, like the terms below it. -/
structure LegibleTerm (n : Node) : Prop where
  writes : n.WritesTerm
  below : n.LegibleBelow

theorem LegibleTerm.legible (h : n.LegibleTerm) : n.Legible := ⟨fun _ => h.writes, h.below⟩

theorem legibleBelow_of_items
    (h : ∀ f, ∀ m ∈ n.items f, (f ≠ .pool → m.Legible) ∧ m.LegibleBelow) : n.LegibleBelow := by
  intro f t hstands hf hterm
  cases hstands with
  | child ht => exact ((h f t ht).1 hf).writes hterm
  | deeper hm ht => exact (h _ _ hm).2 f t ht hf hterm

/-- A node that is no term is legible if all that stands under it is. -/
theorem legible_of_items (hkind : n.isTerm = false) (h : n.AllItems Legible) : n.Legible :=
  ⟨fun he => by simp [hkind] at he,
    legibleBelow_of_items fun f m hm => ⟨fun _ => h f m hm, (h f m hm).below⟩⟩

end Node

namespace Surface

open Node

variable {file : Path} {left right inner : Node} {arguments alternatives : List Node} {span : Span}

section Texts

theorem render_joinTerms (operator : Punct) :
    (joinTerms file left operator right).render = left.render ++ operator.text ++ right.render := by
  by_cases h : operator = .dots
  · subst h
    rw [joinTerms, if_pos rfl, render_interval rfl]
    simp [textOf, node?_withNode_of, Punct.text]
  · rw [joinTerms, if_neg h, render_binaryOperation rfl]
    simp [textOf, node?_withNode_of]

theorem render_unary (location : Location) (operator : String) :
    (unary location operator inner).render =
      if operator == "|" then "|" ++ inner.render ++ "|" else operator ++ inner.render := by
  rw [unary, render_unaryOperation rfl]
  simp [textOf]

/-- The text of alternative argument lists. -/
def poolText (arguments alternatives : List Node) : String :=
  ";".intercalate (argumentsText arguments ::
    alternatives.map fun m => argumentsText (m.sequence .arguments))

theorem render_applied (name : String) :
    (applied file span name (arguments, alternatives)).render =
      if arguments.isEmpty && alternatives.isEmpty && !name.isEmpty then name
      else name ++ "(" ++ poolText arguments alternatives ++ ")" := by
  rw [applied, render_function rfl]
  simp [poolText]

theorem toList_intercalate_cons (separator s : String) (ss : List String) :
    (separator.intercalate (s :: ss)).toList =
      s.toList ++ ss.flatMap fun t => separator.toList ++ t.toList := by
  rw [String.toList_intercalate]
  induction ss generalizing s with
  | nil => simp
  | cons t ss ih =>
    have ih := ih t
    simp_all [List.intercalate]

end Texts

section Terms

theorem WritesTerm.joinTerms {operator : Punct} (hl : left.WritesTerm)
    (ho : operator.isArithmetic = true)
    (hr : right.WritesTerm) : (joinTerms file left operator right).WritesTerm := by
  obtain ⟨a, ha, hleft⟩ := hl
  obtain ⟨b, hb, hright⟩ := hr
  refine ⟨_, ha.join ho hb, ?_⟩
  rw [render_joinTerms, String.toList_append, String.toList_append, hleft, hright, chars_append,
    chars_cons, List.append_assoc]
  rfl

theorem legible_joinTerms {operator : Punct} (hl : left.LegibleTerm)
    (ho : operator.isArithmetic = true)
    (hr : right.LegibleTerm) : (joinTerms file left operator right).LegibleTerm where
  writes := WritesTerm.joinTerms hl.writes ho hr.writes
  below := by
    refine legibleBelow_of_items fun f m hm => ?_
    have hm : m = left ∨ m = right := by
      by_cases hdots : operator = .dots <;> cases f <;> simp_all [joinTerms]
    rcases hm with rfl | rfl
    · exact ⟨fun _ => hl.legible, hl.below⟩
    · exact ⟨fun _ => hr.legible, hr.below⟩

theorem legibleBelow_unary (location : Location) (operator : String) (h : inner.LegibleTerm) :
    (unary location operator inner).LegibleBelow := by
  refine legibleBelow_of_items fun f m hm => ?_
  obtain rfl : m = inner := by cases f <;> simp_all [unary]
  exact ⟨fun _ => h.legible, h.below⟩

theorem legible_negative (location : Location) (h : inner.LegibleTerm) :
    (unary location "-" inner).LegibleTerm where
  writes := by
    obtain ⟨a, ha, htext⟩ := h.writes
    refine ⟨_, ha.negate, ?_⟩
    rw [render_unary, if_neg (by decide), String.toList_append, htext]
    rfl
  below := legibleBelow_unary location "-" h

theorem legible_absolute (location : Location) (h : inner.LegibleTerm) :
    (unary location "|" inner).LegibleTerm where
  writes := by
    obtain ⟨a, ha, htext⟩ := h.writes
    refine ⟨_, (Written.absolute ha).single, ?_⟩
    rw [render_unary, if_pos (by decide), String.toList_append, String.toList_append, htext,
      chars_cons, chars_append]
    rfl
  below := legibleBelow_unary location "|" h

theorem legible_leaf {n : Node} {l : Lexeme} (hw : Written .operand [l])
    (hkind : n.kind = .var ∨ n.kind = .symbolicTerm)
    (hname : (n.name.getD "").toList = l.chars) (hfields : n.fields = []) : n.LegibleTerm where
  writes := ⟨_, hw.single, by rw [render_name hkind, hname]; simp⟩
  below := legibleBelow_of_items fun f m hm => by
    rw [Node.items, hfields] at hm
    cases hm

/-- Terms in a row as arguments. -/
structure LegibleArguments (ns : List Node) : Prop where
  nonempty : ns ≠ []
  each : ∀ m ∈ ns, m.LegibleTerm

/-- What stands under a pool. -/
structure LegibleAlternative (m : Node) : Prop where
  arguments : LegibleArguments (m.sequence .arguments)
  below : m.LegibleBelow

/-- Argument lists as alternatives. -/
structure LegiblePool (pool : List Node × List Node) : Prop where
  arguments : LegibleArguments pool.1
  others : ∀ m ∈ pool.2, LegibleAlternative m

theorem exists_members {ns : List Node} (h : ∀ m ∈ ns, m.LegibleTerm) :
    ∃ ms, Written (.members ns.length) ms ∧
      (ns.flatMap fun m => ',' :: m.render.toList) = chars ms := by
  induction ns with
  | nil => exact ⟨[], .noMembers, rfl⟩
  | cons n ns ih =>
    obtain ⟨⟨a, ha, htext⟩, -⟩ := h n List.mem_cons_self
    obtain ⟨ms, hms, hrest⟩ := ih fun m hm => h m (List.mem_cons_of_mem n hm)
    refine ⟨_, .member ha hms, ?_⟩
    rw [List.flatMap_cons, hrest, htext, chars_cons, chars_append]
    rfl

theorem toList_argumentsText (n : Node) (ns : List Node) : (argumentsText (n :: ns)).toList =
    n.render.toList ++ ns.flatMap fun m => ',' :: m.render.toList := by
  rw [argumentsText, List.map_cons, toList_intercalate_cons, List.flatMap_map]
  rfl

theorem LegibleArguments.exists_written {ns : List Node} (h : LegibleArguments ns) :
    ∃ a ms k, Written .chain a ∧ Written (.members k) ms ∧ ns.length = k + 1 ∧
      (argumentsText ns).toList = chars (a ++ ms) := by
  obtain ⟨hne, hall⟩ := h
  cases ns with
  | nil => exact absurd rfl hne
  | cons n ns =>
    obtain ⟨⟨a, ha, htext⟩, -⟩ := hall n List.mem_cons_self
    obtain ⟨ms, hms, hrest⟩ := exists_members fun m hm => hall m (List.mem_cons_of_mem n hm)
    exact ⟨a, ms, _, ha, hms, rfl, by rw [toList_argumentsText, htext, hrest, chars_append]⟩

theorem exists_lists {ms : List Node} (h : ∀ m ∈ ms, LegibleAlternative m) :
    ∃ os, Written (.lists ms.length) os ∧
      (ms.flatMap fun m => ';' :: (argumentsText (m.sequence .arguments)).toList) = chars os := by
  induction ms with
  | nil => exact ⟨[], .noLists, rfl⟩
  | cons m ms ih =>
    obtain ⟨a, bs, k, ha, hbs, -, htext⟩ := (h m List.mem_cons_self).arguments.exists_written
    obtain ⟨os, hos, hrest⟩ := ih fun m' hm' => h m' (List.mem_cons_of_mem m hm')
    refine ⟨_, .list ha hbs hos, ?_⟩
    rw [List.flatMap_cons, hrest, htext, chars_cons, chars_append, chars_append, chars_append,
      List.cons_append, List.append_assoc]
    rfl

theorem LegiblePool.exists_written {pool : List Node × List Node} (h : LegiblePool pool) :
    ∃ ps, Written (.pool pool.1.length pool.2.length) ps ∧
    (poolText pool.1 pool.2).toList = chars ps := by
  obtain ⟨a, ms, k, ha, hms, hlength, hfirst⟩ := h.arguments.exists_written
  obtain ⟨os, hos, hothers⟩ := exists_lists h.others
  refine ⟨a ++ (ms ++ os), ?_, ?_⟩
  · rw [hlength]
    exact .pool ha hms hos
  · rw [poolText, toList_intercalate_cons, List.flatMap_map, hfirst, chars_append, chars_append,
      chars_append, ← hothers, List.append_assoc]
    rfl

theorem legibleBelow_applied (name : String) {pool : List Node × List Node}
    (hfirst : ∀ m ∈ pool.1, m.LegibleTerm) (hothers : ∀ m ∈ pool.2, LegibleAlternative m) :
    (applied file span name pool).LegibleBelow := by
  refine legibleBelow_of_items fun f m hm => ?_
  rw [applied, items_withSequence, items_withSequence] at hm
  split at hm
  · rename_i hf
    exact ⟨fun hne => absurd hf.symm hne, (hothers m hm).below⟩
  · split at hm
    · exact ⟨fun _ => (hfirst m hm).legible, (hfirst m hm).below⟩
    · cases hm

theorem toList_render_applied (name : String) {pool : List Node × List Node} (h : pool.1 ≠ []) :
    (applied file span name pool).render.toList =
      name.toList ++ '(' :: ((poolText pool.1 pool.2).toList ++ [')']) := by
  rw [render_applied, if_neg (by simp [h])]
  simp

/-- Only a tuple of one term is that term. -/
theorem tupled_of_ne {pool : List Node × List Node} (h : (pool.1.length, pool.2.length) ≠ (1, 0)) :
    tupled file span pool = applied file span "" pool := by
  unfold tupled
  split
  · exact absurd rfl h
  · rfl

/-- A name with its arguments. -/
theorem legible_applied {name : String} (hname : (Lexeme.identifier name).Spelled)
    {pool : List Node × List Node} (h : LegiblePool pool) :
    (applied file span name pool).LegibleTerm where
  writes := by
    obtain ⟨ps, hps, htext⟩ := h.exists_written
    refine ⟨_, (Written.call hname hps).single, ?_⟩
    rw [toList_render_applied name h.arguments.nonempty, htext, chars_cons, chars_cons,
      chars_append]
    rfl
  below := legibleBelow_applied name h.arguments.each h.others

theorem legible_unit : (applied file span "" ([], [])).LegibleTerm where
  writes := ⟨_, Written.unit.single, by rw [render_applied]; rfl⟩
  below := legibleBelow_applied "" (by simp) (by simp)

/-- A tuple; parentheses stand around more or less than one term. -/
theorem legible_tupled {pool : List Node × List Node} (h : LegiblePool pool) :
    (tupled file span pool).LegibleTerm := by
  by_cases hone : (pool.1.length, pool.2.length) = (1, 0)
  · obtain ⟨first, others⟩ := pool
    simp only [Prod.mk.injEq, List.length_eq_one_iff, List.length_eq_zero_iff] at hone
    obtain ⟨⟨n, rfl⟩, rfl⟩ := hone
    exact h.arguments.each n List.mem_cons_self
  · rw [tupled_of_ne hone]
    refine ⟨?_, legibleBelow_applied "" h.arguments.each h.others⟩
    obtain ⟨ps, hps, htext⟩ := h.exists_written
    refine ⟨_, (Written.tuple hps hone).single, ?_⟩
    rw [toList_render_applied "" h.arguments.nonempty, htext, chars_cons, chars_append]
    rfl

mutual

theorem Term.legible : ∀ {t : Term}, t.Proper → (t.lower file).LegibleTerm
  | .chain _ first rest, h => by
    rw [Term.lower]
    exact legible_lowerChain rest (Factor.legible h.1) h.2

theorem legible_lowerChain {left : Node} : ∀ (rest : List (Punct × Factor)), left.LegibleTerm →
    ProperOperands rest → (lowerChain file left rest).LegibleTerm
  | [], hleft, _ => hleft
  | (operator, operand) :: rest, hleft, ⟨hoperator, hoperand, hrest⟩ => by
    rw [lowerChain]
    exact legible_lowerChain rest
      (legible_joinTerms hleft hoperator (Factor.legible hoperand)) hrest

theorem Factor.legible : ∀ {f : Factor}, f.Proper → (f.lower file).LegibleTerm
  | .negation _ inner, h => by
    rw [Factor.lower]
    exact legible_negative _ (Factor.legible h)
  | .tuple _ none, _ => by
    rw [Factor.lower]
    exact legible_unit
  | .tuple _ (some pool), h => by
    rw [Factor.lower]
    exact legible_tupled (Pool.legible h)
  | .absolute _ inner, h => by
    rw [Factor.lower]
    exact legible_absolute _ (Term.legible h)
  | .function _ name none, h => legible_leaf (.name h) (.inr rfl) rfl rfl
  | .function _ name (some pool), h => by
    rw [Factor.lower]
    exact legible_applied h.1 (Pool.legible h.2)
  | .var _ name, h => legible_leaf (.alone rfl h) (.inl rfl) rfl rfl
  | .constant _ text, h => by
    obtain ⟨l, hl, hspelled, hchars⟩ := h
    exact legible_leaf (.alone hl hspelled) (.inr rfl) hchars.symm rfl

theorem Pool.legible : ∀ {p : Pool}, p.Proper → LegiblePool (p.lower file)
  | .alternatives first others, h => by
    rw [Pool.lower]
    exact ⟨Terms.legible h.1, legible_lowerAlternatives h.2⟩

theorem legible_lowerAlternatives : ∀ {others : List Terms}, ProperLists others →
    ∀ m ∈ lowerAlternatives file others, LegibleAlternative m
  | [], _ => by simp [lowerAlternatives]
  | terms :: rest, h => by
    have hterms : LegibleArguments (terms.lower file) := Terms.legible h.1
    have hrest : ∀ m ∈ lowerAlternatives file rest, LegibleAlternative m :=
      legible_lowerAlternatives h.2
    rw [lowerAlternatives]
    refine List.forall_mem_cons.mpr ⟨⟨by simpa using hterms, ?_⟩, hrest⟩
    refine legibleBelow_of_items fun f m hm => ?_
    rw [items_withSequence] at hm
    split at hm
    · exact ⟨fun _ => (hterms.each m hm).legible, (hterms.each m hm).below⟩
    · cases hm

theorem Terms.legible : ∀ {ts : Terms}, ts.Proper → LegibleArguments (ts.lower file)
  | .list _ first rest, h => by
    rw [Terms.lower]
    exact ⟨List.cons_ne_nil _ _,
      List.forall_mem_cons.mpr ⟨Term.legible h.1, legible_lowerTerms h.2⟩⟩

theorem legible_lowerTerms : ∀ {rest : List Term}, ProperTerms rest →
    ∀ m ∈ lowerTerms file rest, m.LegibleTerm
  | [], _ => by simp [lowerTerms]
  | term :: rest, h => by
    rw [lowerTerms]
    exact List.forall_mem_cons.mpr ⟨Term.legible h.1, legible_lowerTerms h.2⟩

end

end Terms

end Surface
end AspAtlas
