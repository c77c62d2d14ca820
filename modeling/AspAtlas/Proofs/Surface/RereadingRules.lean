import AspAtlas.Proofs.Surface.RereadingElements
/-!
Reading written rules. Braces, heads and bodies are read back element by element; a bound on the
left is not, since its operator is written in front of its term.
-/
namespace AspAtlas.Surface

open Node

variable {n : Nat} {t : Token} {ts us vs rest : List Token} {l : Lexeme} {ls : List Lexeme}
    {file other : Path}

section Bounds

/-- What follows a choice or an aggregate. -/
def boundEnds : List Punct := [.semicolon, .ifThen, .dot]

/-- The text of a bound on the right. -/
def boundText (file : Path) (right : Option Bound) : String :=
  (right.map fun b => (b.lower file).render).getD ""

theorem Bound.render_lower (b : Bound) :
    (b.lower file).render = (b.operator.getD .lessEqual).text ++ (b.term.lower file).render := by
  rw [Bound.lower, render_guard rfl, textOf, node?_withNode]
  cases b.operator <;> rfl

theorem exists_rightBound {right : Option Bound} (h : ∀ b ∈ right, b.Proper) (file : Path) :
    ∃ ls, CutInto (boundText file right).toList ls ∧ StopsWords (boundText file right).toList ∧
      ∀ n ts rest, 2 * ls.length + 3 ≤ n → ts.map Token.lexeme = ls → OpensWith boundEnds rest →
        ∃ found, optional (rightBound n) (ts ++ rest) = (found, rest) := by
  cases right with
  | none =>
    refine ⟨[], fun _ _ => rfl, by simp [boundText, StopsWords],
      fun n ts rest _ hts hrest => ⟨none, ?_⟩⟩
    obtain rfl : ts = [] := by simpa using hts
    have hoperator : punctWith Punct.isComparison rest = none :=
      punctWith_of_past (hrest.past Punct.isComparison (by decide)) fun _ hs => hs
    have hterm : term n rest = none := by
      obtain ⟨s, hs, b, e, more, rfl⟩ := hrest
      have hstarts : ∀ s ∈ boundEnds, (Lexeme.punct s).startsTerm = false := by decide
      exact term_eq_none (hstarts s hs)
    simp [optional, rightBound, hoperator, hterm]
  | some b =>
    obtain ⟨hoperator, hterm⟩ := h b rfl
    obtain ⟨a, ha, htext⟩ := hterm.exists_written file
    have hs : (b.operator.getD .lessEqual).isComparison = true := by
      cases hb : b.operator with
      | none => rfl
      | some s => exact hoperator s hb
    generalize hsymbol : b.operator.getD .lessEqual = s at hs
    have htrails : Trails (.punct s :: a) := Leads.behind ha.stands (by
      rintro rfl
      cases hs)
    have hchars : (boundText file (some b)).toList = chars (.punct s :: a) := by
      rw [boundText, Option.map_some, Option.getD_some, b.render_lower, hsymbol,
        String.toList_append, htext]
      rfl
    refine ⟨.punct s :: a, hchars ▸ htrails.cut, hchars ▸ htrails.stops,
      fun n ts rest hn hts hrest => ?_⟩
    obtain ⟨b', e', us, rfl, hus⟩ := exists_token hts
    rw [List.length_cons] at hn
    obtain ⟨x, hx⟩ := ha.termReads n us rest (by omega) hus (hrest.past _ (by decide))
    exact ⟨some ⟨⟨b', x.span.stop⟩, some s, x⟩,
      by simp [optional, rightBound, punctWith, hs, hx, beginOf]⟩

end Bounds

section Braces

variable {α β : Type} {item : Nat → Reader α} {R : β → α → Prop} {text : β → String} {bs : List β}

/-- Elements between braces. -/
theorem exists_braced (hnone : ∀ n b e us, item n (⟨.punct .closeBrace, b, e⟩ :: us) = none)
    (h : ∀ b ∈ bs, ∃ ls, CutInto (text b).toList ls ∧ Rereads item elementEnds (R b) ls) :
    ∃ ls, CutInto ("\x7b " ++ "; ".intercalate (bs.map text) ++ " \x7d").toList
        (.punct .openBrace :: (ls ++ [.punct .closeBrace])) ∧
      ∀ n ts b e rest, 2 * ls.length + 3 ≤ n → ts.map Token.lexeme = ls →
        ∃ xs, semicolons n (item n) (ts ++ ⟨.punct .closeBrace, b, e⟩ :: rest) =
            (xs, ⟨.punct .closeBrace, b, e⟩ :: rest) ∧ List.Forall₂ R bs xs := by
  have hopen : CutOff "\x7b ".toList [.punct .openBrace] :=
    cutOff_spaced (s := .openBrace) (by decide)
  have hclose : CutOff " \x7d".toList [.punct .closeBrace] :=
    CutOff.blank.append (CutOff.punct (s := .closeBrace) (by decide))
  have hstops : StopsWords " \x7d".toList := by rintro e ⟨⟩; rfl
  cases bs with
  | nil =>
    refine ⟨[], ?_, fun n ts b e rest _ hts => ⟨[], ?_, .nil⟩⟩
    · rw [List.map_nil, String.intercalate_nil, String.append_empty, String.toList_append]
      exact hopen.append_cutInto hclose.cutInto
    · obtain rfl : ts = [] := by simpa using hts
      simp [semicolons, hnone]
  | cons first more =>
    obtain ⟨ls, hcut, hreads⟩ := exists_row .semicolon [.closeBrace] (by decide) (by decide) h
    refine ⟨ls, ?_, fun n ts b e rest hn hts => ?_⟩
    · rw [String.toList_append, String.toList_append]
      exact hopen.append_cutInto (hcut.append hclose.cutInto hstops)
    · obtain ⟨x, xs, left, hx, hxs, hall⟩ :=
        hreads n ts (⟨.punct .closeBrace, b, e⟩ :: rest) (· = .semicolon) hn hts
          (.head List.mem_cons_self) rfl (by decide)
      exact ⟨x :: xs, by simp [semicolons, hx, hxs], hall⟩

end Braces

section Aggregates

/-- The text of a choice, or of an aggregate without its negations and function. -/
theorem exists_bounded {α β : Type} {item : Nat → Reader α} {R : β → α → Prop} {text : β → String}
    {bs : List β} {right : Option Bound} (file : Path) (hright : ∀ b ∈ right, b.Proper)
    (hnone : ∀ n b e us, item n (⟨.punct .closeBrace, b, e⟩ :: us) = none)
    (h : ∀ b ∈ bs, ∃ ls, CutInto (text b).toList ls ∧ Rereads item elementEnds (R b) ls) :
    ∃ ls, CutInto ("\x7b " ++ "; ".intercalate (bs.map text) ++ " \x7d" ++
      boundText file right).toList
        (.punct .openBrace :: ls) ∧
      ∀ n ts rest, 2 * ls.length + 3 ≤ n → ts.map Token.lexeme = ls → OpensWith boundEnds rest →
        ∃ xs closing stop found, semicolons n (item n) (ts ++ rest) = (xs, closing) ∧
          ∃ behind, punct .closeBrace closing = some (stop, behind) ∧
            optional (rightBound n) behind = (found, rest) ∧ List.Forall₂ R bs xs := by
  obtain ⟨ls, hcut, hreads⟩ := exists_braced hnone h
  obtain ⟨rs, hrcut, hrstops, hrreads⟩ := exists_rightBound hright file
  refine ⟨ls ++ .punct .closeBrace :: rs, ?_, fun n ts rest hn hts hrest => ?_⟩
  · rw [String.toList_append]
    have hall := hcut.append hrcut hrstops
    simpa using hall
  · obtain ⟨us, us₁, rfl, hus, hus₁⟩ := exists_tokens hts
    obtain ⟨b, e, vs, rfl, hvs⟩ := exists_token hus₁
    simp only [List.length_append, List.length_cons] at hn
    obtain ⟨xs, hxs, hall⟩ := hreads n us b e (vs ++ rest) (by omega) hus
    obtain ⟨found, hfound⟩ := hrreads n vs rest (by omega) hvs hrest
    exact ⟨xs, ⟨.punct .closeBrace, b, e⟩ :: (vs ++ rest), e, found, by simpa using hxs, vs ++ rest,
      punct_self, hfound, hall⟩

theorem mentionsOf_bound (b : Option Bound) :
    mentionsOf (b.map (Bound.lower file)).toList = fun _ => [] := by
  cases b with
  | none => rfl
  | some b =>
    funext t
    have hterm : (b.lower file).topAtoms = [] :=
      (walks_topAtoms.guard rfl (by simp [Bound.lower, Span.node])).trans
      (b.term.topAtoms_lower file)
    rw [Option.map_some, Option.toList_some, mentionsOf_singleton, mentions_of_topAtoms hterm]

/-- Elements with bounds beside them. -/
def guarded (file : Path) (n : Node) (left : Option Bound) (elements : List Node)
    (right : Option Bound) : Node :=
  (n.withNode? .leftGuard (left.map (Bound.lower file)))
    |>.withSequence .elements elements
    |>.withNode? .rightGuard (right.map (Bound.lower file))

section Guarded

variable {m m' : Node} {left left' right right' : Option Bound} {elements elements' : List Node}

theorem kind_guarded : (guarded file m left elements right).kind = m.kind := by
  simp [guarded]

theorem items_guarded (hm : m.fields = []) (f : Field) :
    (guarded file m left elements right).items f =
    if .rightGuard = f then (right.map (Bound.lower file)).toList
    else if .elements = f then elements
    else if .leftGuard = f then (left.map (Bound.lower file)).toList else [] := by
  have hnone (f : Field) : m.items f = [] := by rw [Node.items, hm]; rfl
  simp [guarded, hnone]

/-- Only the elements mention something. -/
theorem mentions_guarded (hm : m.fields = []) (hm' : m'.fields = []) (hkind : m'.kind = m.kind)
    (haggregate : m.kind = .aggregate ∨ m.kind = .bodyAggregate)
    (h : mentionsOf elements' = mentionsOf elements) :
    (guarded other m' left' elements' right').mentions =
      (guarded file m left elements right).mentions := by
  refine mentions_congr (by rw [kind_guarded, kind_guarded, hkind]) ?_ fun f hf => ?_
  · rw [kind_guarded, hkind]
    rcases haggregate with h | h <;> simp [h]
  · have hf : f = .leftGuard ∨ f = .elements ∨ f = .rightGuard := by
      rw [kind_guarded, hkind] at hf
      rcases haggregate with h | h <;> simpa [h, NodeKind.childFields] using hf
    rw [items_guarded hm, items_guarded hm']
    rcases hf with rfl | rfl | rfl
    · exact (mentionsOf_bound left').trans (mentionsOf_bound left).symm
    · exact h
    · exact (mentionsOf_bound right').trans (mentionsOf_bound right).symm

/-- The texts of bounds and elements. -/
theorem text_guarded (file : Path) (left right : Option Bound) (elements : List Node)
    (hm : m.fields = []) :
    (guarded file m left elements right).textOf .leftGuard = boundText file left ∧
      (guarded file m left elements right).bracedText = "\x7b " ++
        "; ".intercalate (elements.map render) ++ " \x7d" ∧
      (guarded file m left elements right).textOf .rightGuard = boundText file right := by
  have hnode (f : Field) : m.node? f = none := by rw [node?, hm]; rfl
  cases left <;> cases right <;>
    simp [guarded, withNode?, textOf, bracedText, textsOf, boundText, node?_withNode_of, hnode]

end Guarded

theorem Choice.lower_eq (c : Choice) : c.lower file =
    guarded file (c.span.node file .aggregate) c.left
      (c.elements.map (Conditional.lower file)) c.right := rfl

/-- Choices whose text is read again: there is no bound on the left. -/
structure Choice.Prints (file : Path) (c : Choice) : Prop where
  left : c.left = none
  elements : ∀ e ∈ c.elements, e.Prints file

/-- What follows a head. -/
def headEnds : List Punct := [.ifThen, .dot]

theorem Choice.render_lower {c : Choice} (h : c.left = none) : (c.lower file).render =
    "\x7b " ++ "; ".intercalate (c.elements.map fun e => (e.lower file).render) ++ " \x7d" ++
      boundText file c.right := by
  obtain ⟨hleft, hbraced, hright⟩ :=
    text_guarded (m := c.span.node file .aggregate) file c.left c.right
      (c.elements.map (Conditional.lower file)) rfl
  rw [Choice.lower_eq, render_aggregate kind_guarded, hleft, hbraced, hright, h, List.map_map]
  simp [boundText, Function.comp_def]

theorem optional_leftBound (h : t.lexeme.startsTerm = false) :
    optional (leftBound n) (t :: ts) = (none, t :: ts) := by
  simp [optional, leftBound, term_eq_none h]

theorem conditional_closeBrace {b e : Position} :
    conditional n (⟨.punct .closeBrace, b, e⟩ :: us) = none := by
  have hliteral : literal n (⟨.punct .closeBrace, b, e⟩ :: us) = none := literal_eq_none rfl
  simp [conditional, hliteral]

theorem Choice.exists_reread {c : Choice} (h : c.Proper) (hprints : c.Prints file) (other : Path) :
    ∃ ls, CutInto (c.lower file).render.toList (.punct .openBrace :: ls) ∧
      Rereads choice headEnds (fun c' => (c'.lower other).mentions = (c.lower file).mentions)
        (.punct .openBrace :: ls) := by
  have helements (e : Conditional) (he : e ∈ c.elements) :
      ∃ ls, CutInto (e.lower file).render.toList ls ∧
        Rereads conditional elementEnds (e.Matches file other) ls := by
    obtain ⟨us, hus⟩ := Conditional.exists_reread (h.elements e he) (hprints.elements e he) other
    exact ⟨us, hus.cut, hus.reads⟩
  obtain ⟨ls, hcut, hreads⟩ :=
    exists_bounded file h.right (fun _ _ _ _ => conditional_closeBrace) helements
  rw [Choice.render_lower hprints.left]
  refine ⟨ls, hcut, fun n ts rest hn hts hrest => ?_⟩
  obtain ⟨b, e, us, rfl, hus⟩ := exists_token hts
  rw [List.length_cons] at hn
  obtain ⟨xs, closing, stop, found, hxs, behind, hclosing, hfound, hall⟩ :=
    hreads n us rest (by omega) hus (hrest.mono (by decide))
  have hleft : optional (leftBound n) (⟨.punct .openBrace, b, e⟩ :: (us ++ rest)) =
      (none, ⟨.punct .openBrace, b, e⟩ :: (us ++ rest)) := optional_leftBound rfl
  refine ⟨⟨⟨b, boundEnd found rest⟩, none, xs, found⟩, ?_, ?_⟩
  · simp [choice, hleft, punct_self, hxs, hclosing, hfound, beginOf]
  · simp only [Choice.lower_eq]
    exact mentions_guarded rfl rfl rfl (.inl rfl)
      (mentionsOf_map (hall.imp fun _ _ he => he.lower.symm)).symm

/-- Aggregates whose text is read again: there is no bound on the left. -/
structure Aggregate.Prints (file : Path) (a : Aggregate) : Prop where
  left : a.left = none
  elements : ∀ e ∈ a.elements, PrintsCondition file e.condition

/-- The elements and bounds of an aggregate, without its negations. -/
def Aggregate.lowerGuarded (a : Aggregate) (file : Path) : Node :=
  guarded file { (a.span.node file .bodyAggregate) with operator := some a.function.name } a.left
    (a.elements.map (AggregateElement.lower file)) a.right

theorem Aggregate.lower_eq (a : Aggregate) : a.lower file =
    Node.withNode { (a.span.node file .literal) with sign := a.negations.sign } .atom
      (a.lowerGuarded file) := rfl

theorem operator_guarded : (guarded file m left elements right).operator = m.operator := by
  cases left <;> cases right <;> rfl

theorem Keyword.hash_name (word : Keyword) : "#" ++ word.name = word.text := by
  cases word <;> rfl

theorem Aggregate.render_lower {a : Aggregate} (h : a.left = none) : (a.lower file).render =
    a.negations.sign.lead ++ (a.function.text ++
      ("\x7b " ++ "; ".intercalate (a.elements.map fun e => (e.lower file).render) ++ " \x7d" ++
        boundText file a.right)) := by
  obtain ⟨hleft, hbraced, hright⟩ := text_guarded
    (m := { (a.span.node file .bodyAggregate) with operator := some a.function.name }) file
      a.left a.right
    (a.elements.map (AggregateElement.lower file)) rfl
  rw [Aggregate.lower_eq, render_literal rfl, textOf, node?_withNode, Option.map_some,
    Option.getD_some, lowerGuarded, render_bodyAggregate kind_guarded, hleft, hbraced, hright,
    operator_guarded, Option.getD_some, Keyword.hash_name, h, List.map_map]
  simp only [boundText, Option.map_none, Option.getD_none, String.empty_append]
  rfl

theorem Aggregate.mentions_lower {a a' : Aggregate}
    (h : List.Forall₂ (AggregateElement.Matches file other) a.elements a'.elements) :
    (a'.lower other).mentions = (a.lower file).mentions := by
  have hguarded : (a'.lowerGuarded other).mentions = (a.lowerGuarded file).mentions :=
    mentions_guarded rfl rfl rfl (.inr rfl)
      (mentionsOf_map (h.imp fun _ _ he => he.lower.symm)).symm
  refine mentions_congr rfl (by simp [Aggregate.lower_eq]) fun f hf => ?_
  obtain rfl : f = .atom := by simpa [Aggregate.lower_eq, NodeKind.childFields] using hf
  simp [Aggregate.lower_eq, hguarded]

/-- A unit in front of a text that it does not reach into. -/
theorem CutInto.behind {c : Char} {cs : List Char} (h : CutInto (c :: cs) ls) (hl : l.Spelled)
    (hstop : l.goesOn c = false) : CutInto (l.chars ++ c :: cs) (l :: ls) := by
  intro post hpost
  have hstops : l.StopsAt (c :: cs ++ post) := by
    rintro e ⟨⟩
    exact hstop
  rw [List.append_assoc, units_spelled hl hstops, h post hpost, List.cons_append]

theorem aggregateElement_closeBrace {b e : Position} :
    aggregateElement n (⟨.punct .closeBrace, b, e⟩ :: us) = none := by
  have hterm : term n (⟨.punct .closeBrace, b, e⟩ :: us) = none := term_eq_none rfl
  simp [aggregateElement, termsOf, condition, separator, punct, hterm]

theorem Aggregate.exists_reread {a : Aggregate} (h : a.Proper) (hprints : a.Prints file)
    (other : Path) : ∃ ls, CutInto (a.lower file).render.toList ls ∧
      Rereads aggregate boundEnds
        (fun a' => (a'.lower other).mentions = (a.lower file).mentions) ls := by
  have helements (e : AggregateElement) (he : e ∈ a.elements) :
      ∃ ls, CutInto (e.lower file).render.toList ls ∧
        Rereads aggregateElement elementEnds (e.Matches file other) ls :=
    AggregateElement.exists_reread (h.elements e he) (hprints.elements e he) other
  obtain ⟨ls, hcut, hreads⟩ :=
    exists_bounded file h.right (fun _ _ _ _ => aggregateElement_closeBrace) helements
  have hfunction : (Lexeme.keyword a.function).startsTerm = false ∧
      (Lexeme.keyword a.function).goesOn '\x7b' = false := by
    have hword := h.function
    cases hname : a.function <;> first | decide | (rw [hname] at hword; cases hword)
  have hopened (x y : String) : ("\x7b " ++ x ++ " \x7d" ++ y).toList = '\x7b' ::
      ("  " ++ x ++ " \x7d" ++ y).toList.tail := by
    simp [String.toList_append]
  rw [hopened] at hcut
  refine ⟨a.negations.units ++ .keyword a.function :: .punct .openBrace :: ls, ?_,
    fun n ts rest hn hts hrest => ?_⟩
  · rw [Aggregate.render_lower hprints.left, String.toList_append, String.toList_append, hopened]
    exact a.negations.cutOff_lead.append_cutInto
      (hcut.behind (keyword_spelled a.function) hfunction.2)
  · obtain ⟨nots, us₁, rfl, hnots, hus₁⟩ := exists_tokens hts
    obtain ⟨b, e, us₂, rfl, hus₂⟩ := exists_token hus₁
    obtain ⟨b', e', us, rfl, hus⟩ := exists_token hus₂
    simp only [List.length_append, List.length_cons] at hn
    obtain ⟨xs, closing, stop, found, hxs, behind, hclosing, hfound, hall⟩ :=
      hreads n us rest (by omega) hus hrest
    have hsign : Surface.negations
        (nots ++ (⟨.keyword a.function, b, e⟩ :: ⟨.punct .openBrace, b', e'⟩ :: (us ++ rest))) =
          (a.negations,
            ⟨.keyword a.function, b, e⟩ :: ⟨.punct .openBrace, b', e'⟩ :: (us ++ rest)) :=
      negations_units hnots (.inr ⟨_, _, rfl, by simp⟩)
    have hleft : optional (leftBound n)
        (⟨.keyword a.function, b, e⟩ :: ⟨.punct .openBrace, b', e'⟩ :: (us ++ rest)) =
          (none, ⟨.keyword a.function, b, e⟩ :: ⟨.punct .openBrace, b', e'⟩ :: (us ++ rest)) :=
      optional_leftBound hfunction.1
    refine ⟨⟨⟨beginOf (nots ++
      (⟨.keyword a.function, b, e⟩ :: ⟨.punct .openBrace, b', e'⟩ :: (us ++ rest))),
      boundEnd found rest⟩, a.negations, none, a.function, xs, found⟩, ?_,
      Aggregate.mentions_lower hall⟩
    simp [aggregate, hsign, hleft, keywordWith, h.function, punct_self, hxs, hclosing, hfound]

end Aggregates

section Bodies

/-- What follows an element of a body. -/
def bodyEnds : List Punct := [.semicolon, .dot]

def BodyElement.Prints (file : Path) : BodyElement → Prop
  | .conditional c => c.Prints file
  | .aggregate a => a.Prints file

theorem BodyElement.exists_reread {e : BodyElement} (h : e.Proper) (hprints : e.Prints file)
    (other : Path) : ∃ ls, CutInto (e.lower file).render.toList ls ∧
      Rereads bodyElement bodyEnds
        (fun e' => (e'.lower other).mentions = (e.lower file).mentions) ls := by
  cases e with
  | conditional c =>
    obtain ⟨ls, hls⟩ := Conditional.exists_reread h hprints other
    refine ⟨ls, ?_, fun n ts rest hn hts hrest => ?_⟩
    · rw [BodyElement.lower, c.render_lowerPlain]
      exact hls.cut
    · have hends : OpensWith elementEnds rest := hrest.mono (by decide)
      obtain ⟨c', hc', hsame⟩ := hls.reads n ts rest hn hts hends
      have hnone := (hls.plain n ts rest hn hts hends).2
      exact ⟨.conditional c', by simp [bodyElement, hnone, hc'], hsame.lowerPlain⟩
  | aggregate a =>
    obtain ⟨ls, hcut, hreads⟩ := Aggregate.exists_reread h hprints other
    refine ⟨ls, hcut, fun n ts rest hn hts hrest => ?_⟩
    obtain ⟨a', ha', hsame⟩ := hreads n ts rest hn hts (hrest.mono (by decide))
    exact ⟨.aggregate a', by simp [bodyElement, ha'], hsame⟩

/-- The text of a body behind a head. -/
def bodyText (file : Path) (body : List BodyElement) : String :=
  if body.isEmpty then "" else " :- " ++ "; ".intercalate (body.map fun e => (e.lower file).render)

theorem stopsWords_bodyText (body : List BodyElement) : StopsWords (bodyText file body).toList := by
  rw [bodyText]
  split
  · simp [StopsWords]
  · rw [String.toList_append]
    rintro e ⟨⟩
    rfl

/-- A body behind a head, if there is one. -/
theorem exists_body {elements : List BodyElement} (hproper : ∀ e ∈ elements, e.Proper)
    (hprints : ∀ e ∈ elements, e.Prints file) (other : Path) :
    ∃ ls, CutInto (bodyText file elements).toList ls ∧
      ∀ n ts rest, 2 * ls.length + 3 ≤ n → ts.map Token.lexeme = ls → OpensWith [.dot] rest →
        (∃ found, optional (arrowBody n) (ts ++ rest) = (found, rest) ∧
          mentionsOf (lowerBody other (found.getD [])) = mentionsOf (lowerBody file elements)) ∧
          OpensWith headEnds (ts ++ rest) := by
  cases elements with
  | nil =>
    refine ⟨[], fun _ _ => rfl, fun n ts rest _ hts hrest => ?_⟩
    obtain rfl : ts = [] := by simpa using hts
    have harrow : punct .ifThen rest = none :=
      punct_of_past (hrest.past (· = .ifThen) (by decide)) rfl
    exact ⟨⟨none, by simp [optional, arrowBody, harrow], rfl⟩, hrest.mono (by decide)⟩
  | cons first more =>
    have hall (e : BodyElement) (he : e ∈ first :: more) :
        ∃ ls, CutInto (e.lower file).render.toList ls ∧
          Rereads bodyElement bodyEnds
            (fun e' => (e'.lower other).mentions = (e.lower file).mentions) ls :=
      BodyElement.exists_reread (hproper e he) (hprints e he) other
    obtain ⟨ls, hcut, hreads⟩ := exists_row .semicolon [.dot] (by decide) (by decide) hall
    have harrow : CutOff " :- ".toList [.punct .ifThen] :=
      CutOff.blank.append (cutOff_spaced (s := .ifThen) (by decide))
    refine ⟨.punct .ifThen :: ls, ?_, fun n ts rest hn hts hrest => ?_⟩
    · rw [bodyText, if_neg (by simp), String.toList_append]
      exact harrow.append_cutInto hcut
    · obtain ⟨b, e, us, rfl, hus⟩ := exists_token hts
      rw [List.length_cons] at hn
      obtain ⟨x, xs, left, hx, hxs, hall⟩ :=
        hreads n us rest (fun s => s = .comma ∨ s = .semicolon) (by omega) hus hrest
          (by decide) (by decide)
      have hbody : body n (us ++ rest) = some (x :: xs, rest) := by
        simp only [body, hx, hxs, Option.bind_eq_bind, Option.bind_some]
      refine ⟨⟨some (x :: xs), by simp [optional, arrowBody, punct_self, hbody], ?_⟩,
        .head List.mem_cons_self⟩
      exact (mentionsOf_map (hall.imp fun _ _ he => he.symm)).symm

end Bodies

section Heads

def Head.Prints (file : Path) : Head → Prop
  | .choice c => c.Prints file
  | .disjunction _ first rest => ∀ e ∈ first :: rest, e.Prints file

theorem Head.render_disjunction {span : Span} {first : Conditional} {rest : List Conditional} :
    ((Head.disjunction span first rest).lower file).render =
      "; ".intercalate ((first :: rest).map fun e => (e.lower file).render) := by
  rw [Head.lower]
  split
  · rename_i halone
    obtain ⟨hrest, hcondition⟩ := Bool.and_eq_true_iff.mp halone
    rw [List.isEmpty_iff.mp hrest, List.map_cons, List.map_nil, String.intercalate_singleton,
      first.render_lower, conditionTextOf, if_pos hcondition, String.append_empty]
  · rw [Node.render_disjunction rfl, textsOf, sequence_withSequence, if_pos rfl, List.map_map]
    rfl

theorem Head.mentions_disjunction {span span' : Span} {first first' : Conditional}
    {rest rest' : List Conditional}
    (hfirst : first.Matches file other first')
    (hrest : List.Forall₂ (Conditional.Matches file other) rest rest') :
    ((Head.disjunction span' first' rest').lower other).mentions =
      ((Head.disjunction span first rest).lower file).mentions := by
  rw [Head.lower, Head.lower, ← isEmpty_eq_of_forall₂ hrest,
    ← isEmpty_eq_of_forall₂ hfirst.condition]
  split
  · exact hfirst.literal
  · refine mentions_congr rfl (by simp) fun f hf => ?_
    obtain rfl : f = .elements := by simpa [NodeKind.childFields] using hf
    rw [items_withSequence, items_withSequence, if_pos rfl, if_pos rfl]
    exact (mentionsOf_map ((List.Forall₂.cons hfirst hrest).imp fun _ _ he => he.lower.symm)).symm

/-- The units that a head starts with. -/
def Lexeme.startsHead (l : Lexeme) : Bool := l.startsLiteral || l = .punct .openBrace

structure Head.Reread (node : Node) (other : Path) (ls : List Lexeme) : Prop where
  cut : CutInto node.render.toList ls
  starts : ∃ l more, ls = l :: more ∧ l.startsHead = true
  reads : Rereads head headEnds (fun h => (h.lower other).mentions = node.mentions) ls

theorem Head.exists_reread {h : Head} (hproper : h.Proper) (hprints : h.Prints file)
    (other : Path) : ∃ ls, Head.Reread (h.lower file) other ls := by
  cases h with
  | choice c =>
    obtain ⟨ls, hcut, hreads⟩ := Choice.exists_reread hproper hprints other
    refine ⟨_, hcut, ⟨_, ls, rfl, rfl⟩, fun n ts rest hn hts hrest => ?_⟩
    obtain ⟨c', hc', hsame⟩ := hreads n ts rest hn hts hrest
    exact ⟨.choice c', by simp [head, hc'], hsame⟩
  | disjunction span first more =>
    obtain ⟨a, ha⟩ := Conditional.exists_reread hproper.1 (hprints first List.mem_cons_self) other
    have hbehind (e : Conditional) (he : e ∈ more) : ∃ ls, CutInto (e.lower file).render.toList ls ∧
        Rereads conditional elementEnds (e.Matches file other) ls := by
      obtain ⟨us, hus⟩ := Conditional.exists_reread (hproper.2 e he)
        (hprints e (List.mem_cons_of_mem first he)) other
      exact ⟨us, hus.cut, hus.reads⟩
    obtain ⟨ls, hcut, hstops, hmore⟩ :=
      exists_further .semicolon headEnds (by decide) (by decide) hbehind
    obtain ⟨x, xs, rfl, hx⟩ := ha.starts
    refine ⟨x :: xs ++ ls, ?_, ⟨x, xs ++ ls, rfl, by simp [Lexeme.startsHead, hx]⟩,
      fun n ts rest hn hts hrest => ?_⟩
    · rw [Head.render_disjunction, List.map_cons, toList_intercalate_cons, List.flatMap_map]
      exact ha.cut.append hcut hstops
    · obtain ⟨us, vs, rfl, hus, hvs⟩ := exists_tokens hts
      rw [List.length_append] at hn
      obtain ⟨⟨others, hothers, hall⟩, hopens⟩ :=
        hmore n n vs rest (fun s => s = .semicolon ∨ s = .bar) (by omega)
          (by omega) hvs hrest (by decide) (by decide)
      have hends : OpensWith elementEnds (vs ++ rest) := hopens.mono (by decide)
      obtain ⟨e, he, hsame⟩ := ha.reads n us (vs ++ rest) (by omega) hus hends
      have hchoice := (ha.plain n us (vs ++ rest) (by omega) hus hends).1
      rw [List.append_assoc]
      refine ⟨.disjunction ⟨beginOf (us ++ (vs ++ rest)), endOf (·.span.stop) others (vs ++ rest)⟩
        e others, ?_, Head.mentions_disjunction hsame hall⟩
      simp only [head, hchoice, Surface.disjunction, he, hothers, Option.map_none,
        Option.bind_eq_bind, Option.bind_some]
      rfl

/-- The tree of the head of a rule, which is false if there is none. -/
def lowerHead (file : Path) (span : Span) : Option Head → Node
  | some h => h.lower file
  | none => named file span .booleanConstant "false"

/-- The head that is false. -/
def falsehood (span : Span) : Head :=
  .disjunction span ⟨span, ⟨span, .none, .boolean span .falsity⟩, []⟩ []

theorem falsehood_proper (span : Span) : (falsehood span).Proper := by
  refine ⟨⟨⟨.inr rfl, ?_⟩, ?_⟩, ?_⟩ <;> simp

theorem falsehood_prints (file : Path) (span : Span) : (falsehood span).Prints file := by
  intro e he
  obtain rfl := List.mem_singleton.mp he
  exact ⟨fun hloses => hloses.elim, by simp, by simp⟩

theorem falsehood_lower (file : Path) (span : Span) :
    ((falsehood span).lower file).render = (lowerHead file span none).render ∧
      ((falsehood span).lower file).mentions = (lowerHead file span none).mentions := by
  have hhead : (falsehood span).lower file =
      Literal.lower file ⟨span, .none, .boolean span .falsity⟩ := rfl
  refine ⟨?_, ?_⟩
  · rw [hhead, Literal.render_lower]
    exact String.empty_append
  · have hatoms : ((falsehood span).lower file).topAtoms = [] := by
      rw [hhead, topAtoms_of_kind (by simp [Literal.lower])]
      simp [Literal.lower, NodeKind.childFields, Assertion.topAtoms_boolean]
    have hnone : (lowerHead file span none).topAtoms = [] :=
      walks_topAtoms.named (by decide) (by decide)
    funext t
    rw [mentions_of_topAtoms hatoms, mentions_of_topAtoms hnone]

theorem exists_head (span : Span) {h : Option Head} (hproper : ∀ x ∈ h, x.Proper)
    (hprints : ∀ x ∈ h, x.Prints file) (other : Path) :
    ∃ ls, Head.Reread (lowerHead file span h) other ls := by
  cases h with
  | some h => exact Head.exists_reread (hproper h rfl) (hprints h rfl) other
  | none =>
    obtain ⟨ls, hls⟩ := Head.exists_reread (falsehood_proper span)
      (falsehood_prints file span) other
    obtain ⟨hrender, hmentions⟩ := falsehood_lower file span
    exact ⟨ls, hrender ▸ hls.cut, hls.starts, hmentions ▸ hls.reads⟩

end Heads

section Statements

variable {span : Span} {h : Option Head} {elements : List BodyElement}

theorem keyword_eq_none {word : Keyword} (h : t.lexeme ≠ .keyword word) :
    keyword word (t :: ts) = none := by
  obtain ⟨lexeme, b, e⟩ := t
  cases lexeme with
  | keyword found =>
    have hne : found ≠ word := by
      rintro rfl
      exact h rfl
    simp [keyword, hne]
  | _ => rfl

/-- Statements with a head are rules. -/
theorem statement_of_headedRule {s : Statement} (ht : t.lexeme.startsHead = true)
    (h : headedRule n (t :: ts) = some (s, rest)) : statement n (t :: ts) = some (s, rest) := by
  have hkeyword (word : Keyword) (hword : (Lexeme.keyword word).startsHead = false) :
      keyword word (t :: ts) = none := keyword_eq_none (by
    intro he
    rw [he, hword] at ht
    cases ht)
  have hoptimize : keywordWith (fun k => k = .minimize ∨ k = .maximize) (t :: ts) = none :=
    keywordWith_eq_none fun word hword => by
      rw [hword] at ht
      cases word <;> first | rfl | cases ht
  have hweak : punct .weakIf (t :: ts) = none := punct_eq_none (by
    intro he
    rw [he] at ht
    cases ht)
  have hweakStatement : weakStatement n (t :: ts) = none := by simp [weakStatement, hweak]
  have hoptimizeStatement : optimizeStatement n (t :: ts) = none := by
    simp only [optimizeStatement, hoptimize, Option.bind_eq_bind, Option.bind_none]
  simp only [statement, includeStatement, constantStatement, definedStatement, showAllStatement,
    showSignatureStatement, signatureStatement, showTermStatement, programStatement,
      externalStatement, hkeyword .includes rfl,
    hkeyword .const rfl, hkeyword .defined rfl, hkeyword .shows rfl, hkeyword .program rfl,
      hkeyword .external rfl,
    hoptimizeStatement, hweakStatement, h, Option.bind_eq_bind, Option.bind_none]
  rfl

/-- The tree of a rule. -/
def lowerRule (file : Path) (span : Span) (h : Option Head) (elements : List BodyElement) : Node :=
  ((span.node file .rule).withNode .head (lowerHead file span h)).withSequence .body
  (lowerBody file elements)

theorem lower_rule : Statement.lower file (.rule span h elements) = .ok
    [.statement (lowerRule file span h elements)] := by
  cases h <;> rfl

theorem lowerRule_mentions {span' : Span} {h' : Option Head} {elements' : List BodyElement}
    (hhead : (lowerHead other span' h').mentions = (lowerHead file span h).mentions)
    (hbody : mentionsOf (lowerBody other elements') = mentionsOf (lowerBody file elements)) :
    (lowerRule other span' h' elements').mentions = (lowerRule file span h elements).mentions := by
  refine mentions_congr rfl (by simp [lowerRule]) fun f hf => ?_
  have hf : f = .head ∨ f = .body := by simpa [lowerRule, NodeKind.childFields] using hf
  rcases hf with rfl | rfl
  · simp [lowerRule, hhead]
  · simp [lowerRule, hbody]

/-- The text of a rule is read as a rule that mentions the same. -/
theorem exists_rule (hproper : (Statement.rule span h elements).Proper)
    (hhead : ∀ x ∈ h, x.Prints file) (hbody : ∀ e ∈ elements, e.Prints file) (other : Path) :
    ∃ span' h' elements', parse? ((lowerHead file span h).render ++ bodyText file elements ++ ".") =
        some [.rule span' (some h') elements'] ∧
      (lowerRule other span' (some h') elements').mentions =
        (lowerRule file span h elements).mentions := by
  obtain ⟨hs, hread⟩ := exists_head span hproper.1 hhead other
  obtain ⟨bs, hcut, hbodyread⟩ := exists_body hproper.2 hbody other
  obtain ⟨l, more, rfl, hl⟩ := hread.starts
  have hunits : units (((lowerHead file span h).render ++ bodyText file elements ++ ".").toList) =
      l :: more ++ (bs ++ [.punct .dot, .finish]) := by
    have hall := (hread.cut.append hcut (stopsWords_bodyText elements)) ['.'] (by rintro e ⟨⟩; rfl)
    rw [String.toList_append, String.toList_append]
    exact hall.trans (List.append_assoc ..)
  obtain ⟨us₁, ws₁, htokens, hus₁, hws₁⟩ := exists_tokens hunits
  obtain ⟨vs, ws, rfl, hvs, hws⟩ := exists_tokens hws₁
  obtain ⟨b, e, ws', rfl, hws'⟩ := exists_token hws
  obtain ⟨b', e', rfl⟩ := exists_lone_token hws'
  obtain ⟨b'', e'', us, rfl, hus⟩ := exists_token hus₁
  have hsize : more.length = us.length ∧ bs.length = vs.length := by
    rw [← hus, ← hvs, List.length_map, List.length_map]
    exact ⟨rfl, rfl⟩
  let n := budget (us.length + vs.length + 3)
  obtain ⟨⟨found, hfound, hmentions⟩, hopens⟩ :=
    hbodyread n vs [⟨.punct .dot, b, e⟩, ⟨.finish, b', e'⟩]
      (by simp only [n, budget]; omega) hvs (.head List.mem_cons_self)
  obtain ⟨h', hh', hsame⟩ :=
    hread.reads n (⟨l, b'', e''⟩ :: us) (vs ++ [⟨.punct .dot, b, e⟩, ⟨.finish, b', e'⟩])
      (by simp only [n, budget, List.length_cons]; omega) (by simp [hus]) hopens
  refine ⟨⟨b'', e⟩, h', found.getD [], ?_, lowerRule_mentions hsame hmentions⟩
  have hrule : headedRule n
      (⟨l, b'', e''⟩ :: (us ++ (vs ++ [⟨.punct .dot, b, e⟩, ⟨.finish, b', e'⟩]))) =
      some (.rule ⟨b'', e⟩ (some h') (found.getD []), [⟨.finish, b', e'⟩]) := by
    simp only [List.cons_append] at hh'
    simp [headedRule, hh', hfound, endDot, beginOf]
  rw [parse?, htokens, List.cons_append]
  refine ofTokens?_of_statement (b := b') (e := e') ?_ ?_
  · rintro rfl
    cases hl
  · have hlength : (⟨l, b'', e''⟩ ::
        (us ++ (vs ++ [⟨.punct .dot, b, e⟩, ⟨.finish, b', e'⟩])) : List Token).length =
        us.length + vs.length + 3 := by
      simp only [List.length_append, List.length_cons, List.length_nil]
      omega
    rw [hlength]
    exact statement_of_headedRule hl hrule

end Statements

end AspAtlas.Surface
