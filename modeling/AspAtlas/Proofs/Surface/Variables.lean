import AspAtlas.Proofs.Surface.Nesting
/-!
The places of a variable in a lowered tree. They lie where the construct lies, one behind the other,
but for a weak constraint: its weight is walked first, and stands behind its body.
-/
namespace AspAtlas

/-- Where a variable stands in a tree, in the order of a walk over it. -/
def Node.placesOf (name : String) (n : Node) : List Location :=
  ((n.visit fun _ => true).filter fun m => m.kind == .var && m.name == some name).map (·.location)

/-- The walk over a node for a weight meets a variable below the weight first, and then turns back
to the body in front of it, where the variable stands, too. -/
def Node.TurnsBack (name : String) (n : Node) : Prop :=
  n.kind = .minimize ∧ ∃ l ∈ Surface.bracketed (placesOf name) n,
    ∃ m ∈ (n.items .body).flatMap (placesOf name), m.Before l

namespace Surface

open Node

/-- The span of a location. -/
def locationSpan (l : Location) : Span := ⟨l.begin, l.stop⟩

/-- A location lies between two positions. -/
def PlaceIn (lo hi : Position) (l : Location) : Prop := Within lo hi (locationSpan l)

theorem placeIn_spanned : Spanned PlaceIn locationSpan := ⟨fun h => h, fun _ hw => hw⟩

variable (name : String)

theorem placesOf_eq (n : Node) :
    n.placesOf name = (if n.kind == .var && n.name == some name then [n.location] else []) ++
      n.kind.childFields.flatMap fun f => (n.items f).flatMap (placesOf name) := by
  rw [placesOf, visit_eq_items, if_pos rfl, List.filter_cons]
  split
  · simp only [List.map_cons, List.filter_flatMap, List.map_flatMap, List.singleton_append]
    rfl
  · simp only [List.filter_flatMap, List.map_flatMap, List.nil_append]
    rfl

theorem placesOf_of_kind {n : Node} (h : n.kind ≠ .var) :
    n.placesOf name = n.kind.childFields.flatMap fun f => (n.items f).flatMap (placesOf name) := by
  rw [placesOf_eq, beq_eq_false_iff_ne.mpr h]
  rfl

theorem walks_placesOf : Walks (placesOf name) := ⟨fun _ hvar => placesOf_of_kind name hvar⟩

variable {file : Path}

mutual

/-- The places of a variable in a term lie in it, one behind the other. -/
theorem Term.places_in : (t : Term) → {lo hi : Position} → t.In lo hi →
    Row PlaceIn lo hi ((t.lower file).placesOf name)
  | .chain _ first rest, _, _, h => by
    obtain ⟨hwithin, mid, hfirst, hrest⟩ := h
    rw [Term.lower]
    have hchain := places_in_lowerChain rest (first.places_in hfirst) hrest
    exact hchain.mono placeIn_spanned hwithin.left hwithin.right

theorem places_in_lowerChain :
    (rest : List (Punct × Factor)) → {left : Node} → {lo mid hi : Position} →
      Row PlaceIn lo mid (left.placesOf name) → operandsIn mid hi rest →
      Row PlaceIn lo hi ((lowerChain file left rest).placesOf name)
  | [], _, _, _, _, hleft, hrest => by
    rw [lowerChain]
    exact hleft.mono placeIn_spanned (le_refl _) hrest
  | (operator, operand) :: rest, _, _, _, _, hleft, hrest => by
    obtain ⟨stop, hoperand, hrest⟩ := hrest
    rw [lowerChain]
    refine places_in_lowerChain rest ?_ hrest
    rw [(walks_placesOf name).joinTerms]
    exact hleft.append placeIn_spanned (operand.places_in hoperand)

theorem Factor.places_in : (f : Factor) → {lo hi : Position} → f.In lo hi →
    Row PlaceIn lo hi ((f.lower file).placesOf name)
  | .negation _ inner, _, _, h => by
    rw [Factor.lower, (walks_placesOf name).unary]
    exact (inner.places_in h.2).mono placeIn_spanned h.1.left h.1.right
  | .tuple _ none, _, _, h => by
    rw [Factor.lower, (walks_placesOf name).tupled]
    exact .nil (Within.lt h).le
  | .tuple _ (some pool), _, _, h => by
    rw [Factor.lower, (walks_placesOf name).tupled]
    exact (pool.places_in h.2).mono placeIn_spanned h.1.left h.1.right
  | .absolute _ inner, _, _, h => by
    rw [Factor.lower, (walks_placesOf name).unary]
    exact (inner.places_in h.2).mono placeIn_spanned h.1.left h.1.right
  | .function _ _ none, _, _, h => by
    rw [Factor.lower, (walks_placesOf name).named (by decide) (by decide)]
    exact .nil (Within.lt h).le
  | .function _ _ (some pool), _, _, h => by
    rw [Factor.lower, (walks_placesOf name).applied]
    exact (pool.places_in h.2).mono placeIn_spanned h.1.left h.1.right
  | .var span text, _, _, h => by
    have hplaces : (named file span .var text).placesOf name =
        if text = name then [⟨file, span.begin, span.stop⟩] else [] := by
      rw [placesOf_eq]
      by_cases he : text = name <;> simp [named, Span.node, NodeKind.childFields, he]
    rw [Factor.lower, hplaces]
    split
    · exact .singleton h
    · exact .nil (Within.lt h).le
  | .constant _ _, _, _, h => by
    rw [Factor.lower, (walks_placesOf name).named (by decide) (by decide)]
    exact .nil (Within.lt h).le

theorem Pool.places_in : (pool : Pool) → {lo hi : Position} → pool.In lo hi →
    Row PlaceIn lo hi ((pool.lower file).1.flatMap (placesOf name) ++
      (pool.lower file).2.flatMap (placesOf name))
  | .alternatives first others, _, _, h => by
    obtain ⟨mid, hfirst, hothers⟩ := h
    rw [Pool.lower]
    exact (first.places_in hfirst).append placeIn_spanned
      (places_in_lowerAlternatives others hothers)

theorem places_in_lowerAlternatives : (others : List Terms) → {lo hi : Position} →
    alternativesIn lo hi others →
      Row PlaceIn lo hi ((lowerAlternatives file others).flatMap (placesOf name))
  | [], _, _, h => by
    rw [lowerAlternatives, List.flatMap_nil]
    exact .nil h
  | terms :: rest, _, _, h => by
    obtain ⟨mid, hterms, hrest⟩ := h
    rw [lowerAlternatives, List.flatMap_cons, (walks_placesOf name).alternative]
    exact (terms.places_in hterms).append placeIn_spanned (places_in_lowerAlternatives rest hrest)

theorem Terms.places_in : (ts : Terms) → {lo hi : Position} → ts.In lo hi →
    Row PlaceIn lo hi ((ts.lower file).flatMap (placesOf name))
  | .list _ first rest, _, _, h => by
    obtain ⟨hwithin, mid, hfirst, hrest⟩ := h
    rw [Terms.lower, List.flatMap_cons]
    have hrow := (first.places_in hfirst).append placeIn_spanned (places_in_lowerTerms rest hrest)
    exact hrow.mono placeIn_spanned hwithin.left hwithin.right

theorem places_in_lowerTerms : (rest : List Term) → {lo hi : Position} → termsIn lo hi rest →
    Row PlaceIn lo hi ((lowerTerms file rest).flatMap (placesOf name))
  | [], _, _, h => by
    rw [lowerTerms, List.flatMap_nil]
    exact .nil h
  | term :: rest, _, _, h => by
    obtain ⟨mid, hterm, hrest⟩ := h
    rw [lowerTerms, List.flatMap_cons]
    exact (term.places_in hterm).append placeIn_spanned (places_in_lowerTerms rest hrest)

end

theorem Atom.places_in {a : Atom} {lo hi : Position} (h : a.In lo hi) :
    Row PlaceIn lo hi ((a.lower file).placesOf name) := by
  obtain ⟨hwithin, hpool⟩ := h
  have hfunction : (a.lower file).placesOf name =
      (applied file a.span a.name
        ((a.pool.map (Pool.lower file)).getD ([], []))).placesOf name := by
    rw [placesOf_of_kind name (by simp [a.kind_lower]), a.kind_lower]
    simp [NodeKind.childFields, a.items_lower]
  have hrow : Row PlaceIn a.span.begin a.span.stop
      ((applied file a.span a.name
        ((a.pool.map (Pool.lower file)).getD ([], []))).placesOf name) := by
    rw [(walks_placesOf name).applied]
    cases hcase : a.pool with
    | none => exact .nil hwithin.proper.le
    | some pool => exact pool.places_in name (hpool pool hcase)
  rw [hfunction]
  exact hrow.mono placeIn_spanned hwithin.left hwithin.right

/-- The places of a variable are gathered from trees. -/
theorem gathers_places (file : Path) : Gathers file (placesOf name) PlaceIn locationSpan where
  spanned := placeIn_spanned
  walks := walks_placesOf name
  term h := Term.places_in name _ h
  atom h := Atom.places_in name h

section Arranged

variable {name} {n : Node} {lo mid hi : Position} {xs ys : List Location}

theorem Row.before (hx : Row PlaceIn lo mid xs) (hy : Row PlaceIn mid hi ys) :
    ∀ l ∈ xs, ∀ m ∈ ys, l.Before m := by
  intro l hl m hm
  have hfirst := placeIn_spanned.within (hx.of_mem placeIn_spanned hl)
  have hlater := placeIn_spanned.within (hy.of_mem placeIn_spanned hm)
  have hapart : l.stop ≤ m.begin := hfirst.right.trans hlater.left
  exact ⟨hfirst.proper.trans_le hapart, hapart⟩

/-- The places of a variable are in order in an arranged node, or the walk turns from those below
the weight to those of the body, which stand in front. -/
theorem Arranged.turns (h : Arranged file (placesOf name) PlaceIn n) :
    (n.placesOf name).Pairwise Location.Before ∨
      n.kind = .minimize ∧ (bracketed (placesOf name) n).Pairwise Location.Before ∧
        ((n.items .body).flatMap (placesOf name)).Pairwise Location.Before ∧
        ∀ m ∈ (n.items .body).flatMap (placesOf name), ∀ l ∈ bracketed (placesOf name) n,
        m.Before l := by
  rcases h with hrow | ⟨hkind, mid, -, -, hbody, hbracket⟩
  · exact .inl (hrow.pairwise_apart placeIn_spanned)
  · exact .inr ⟨hkind, hbracket.pairwise_apart placeIn_spanned,
      hbody.pairwise_apart placeIn_spanned, hbody.before hbracket⟩

/-- The places of a variable in an arranged node lie in the node. -/
theorem Arranged.places_in (h : Arranged file (placesOf name) PlaceIn n) :
    ∀ l ∈ n.placesOf name, PlaceIn n.location.begin n.location.stop l := by
  intro l hl
  rcases h with hrow | ⟨hkind, mid, -, -, hbody, hbracket⟩
  · exact hrow.of_mem placeIn_spanned hl
  · rw [(walks_placesOf name).minimize hkind] at hl
    rcases List.mem_append.mp hl with hl | hl
    · exact placeIn_spanned.mono (hbracket.of_mem placeIn_spanned hl)
        (hbody.le placeIn_spanned) (le_refl _)
    · exact placeIn_spanned.mono (hbody.of_mem placeIn_spanned hl) (le_refl _)
        (hbracket.le placeIn_spanned)

theorem Arranged.apart (h : Arranged file (placesOf name) PlaceIn n) :
    (n.placesOf name).Pairwise fun l m => l.Before m ∨ m.Before l := by
  rcases h.turns with hordered | ⟨hkind, hbracket, hbody, hturn⟩
  · exact hordered.imp Or.inl
  · rw [(walks_placesOf name).minimize hkind]
    refine List.pairwise_append.mpr ⟨hbracket.imp Or.inl, hbody.imp Or.inl, fun l hl m hm => ?_⟩
    exact .inr (hturn m hm l hl)

theorem Arranged.ordered_iff (h : Arranged file (placesOf name) PlaceIn n) :
    (n.placesOf name).Pairwise Location.Before ↔ ¬ n.TurnsBack name := by
  constructor
  · rintro hordered ⟨hkind, l, hl, m, hm, hml⟩
    rw [(walks_placesOf name).minimize hkind] at hordered
    have hlm := (List.pairwise_append.mp hordered).2.2 l hl m hm
    exact lt_asymm hlm.1 hml.1
  · intro hnot
    rcases h.turns with hordered | ⟨hkind, hbracket, hbody, hturn⟩
    · exact hordered
    · rw [(walks_placesOf name).minimize hkind]
      refine List.pairwise_append.mpr ⟨hbracket, hbody, fun l hl m hm => ?_⟩
      exact absurd ⟨hkind, l, hl, m, hm, hturn m hm l hl⟩ hnot

/-- Where the walk turns back on a variable, the place that it meets first is not the first one. -/
theorem Arranged.exists_before_head (h : Arranged file (placesOf name) PlaceIn n)
    (hback : n.TurnsBack name) {first : Location} (hfirst : (n.placesOf name).head? = some first) :
    ∃ m ∈ n.placesOf name, m.Before first := by
  rcases h.turns with hordered | ⟨hkind, -, -, hturn⟩
  · exact absurd hback (h.ordered_iff.mp hordered)
  · obtain ⟨-, l, hl, m, hm, -⟩ := hback
    rw [(walks_placesOf name).minimize hkind] at hfirst ⊢
    have hmem : first ∈ bracketed (placesOf name) n := by
      rw [List.head?_append_of_ne_nil _ (List.ne_nil_of_mem hl)] at hfirst
      exact List.mem_of_head? hfirst
    exact ⟨m, List.mem_append_right _ hm, hturn m hm first hmem⟩

end Arranged

section Statements

variable {name} {nodes : List Node}
    (harranged : ∀ n ∈ nodes, Arranged file (placesOf name) PlaceIn n)
  (hnodes : nodes.Pairwise fun a b => a.location.Before b.location)

include harranged hnodes

/-- Over statements one behind the other, the places of a variable in one
are before those in the next. -/
theorem places_across : nodes.Pairwise fun a b =>
    ∀ l ∈ a.placesOf name, ∀ m ∈ b.placesOf name, l.Before m := by
  refine hnodes.imp_of_mem fun {a b} ha hb hab l hl m hm => ?_
  have hfirst := placeIn_spanned.within ((harranged a ha).places_in l hl)
  have hlater := placeIn_spanned.within ((harranged b hb).places_in m hm)
  have hapart : l.stop ≤ m.begin := (hfirst.right.trans hab.2).trans hlater.left
  exact ⟨hfirst.proper.trans_le hapart, hapart⟩

theorem places_apart :
    (nodes.flatMap (placesOf name)).Pairwise fun l m => l.Before m ∨ m.Before l := by
  refine List.pairwise_flatMap.mpr ⟨fun n hn => (harranged n hn).apart, ?_⟩
  exact (places_across harranged hnodes).imp fun hab l hl m hm => .inl (hab l hl m hm)

theorem places_ordered_iff : (nodes.flatMap (placesOf name)).Pairwise Location.Before ↔
    ∀ n ∈ nodes, ¬ n.TurnsBack name := by
  rw [List.pairwise_flatMap]
  constructor
  · rintro ⟨hordered, -⟩ n hn
    exact (harranged n hn).ordered_iff.mp (hordered n hn)
  · intro hnot
    exact ⟨fun n hn => (harranged n hn).ordered_iff.mpr (hnot n hn), places_across harranged hnodes⟩

/-- The place that the walk meets first is the first one exactly if the walk does not turn back in
the first statement with the variable. -/
theorem head_first_iff {before behind : List Node} {n : Node}
    (hsplit : nodes = before ++ n :: behind)
    (hbefore : ∀ m ∈ before, m.placesOf name = []) (hne : n.placesOf name ≠ []) {first : Location}
    (hhead : (nodes.flatMap (placesOf name)).head? = some first) :
    (∀ l ∈ nodes.flatMap (placesOf name), l = first ∨ first.Before l) ↔ ¬ n.TurnsBack name := by
  have hn : n ∈ nodes := by
    rw [hsplit]
    exact List.mem_append_right _ List.mem_cons_self
  have hall : nodes.flatMap (placesOf name) = n.placesOf name ++
      behind.flatMap (placesOf name) := by
    rw [hsplit, List.flatMap_append, List.flatMap_eq_nil_iff.mpr hbefore, List.nil_append,
      List.flatMap_cons]
  obtain ⟨start, rest, hplaces⟩ := List.exists_cons_of_ne_nil hne
  have hstart : start = first := by simpa [hall, hplaces] using hhead
  subst hstart
  rw [hall, hplaces]
  constructor
  · intro hfirst hback
    obtain ⟨m, hm, hmfirst⟩ := (harranged n hn).exists_before_head hback (by rw [hplaces]; rfl)
    rw [hplaces] at hm
    rcases hfirst m (List.mem_append_left _ hm) with rfl | hfirstm
    · exact lt_irrefl _ hmfirst.1
    · exact lt_asymm hmfirst.1 hfirstm.1
  · intro hnot l hl
    have hordered := (harranged n hn).ordered_iff.mpr hnot
    rw [hplaces] at hordered
    rcases List.mem_append.mp hl with hl | hl
    · exact (List.mem_cons.mp hl).imp_right fun hl => (List.pairwise_cons.mp hordered).1 l hl
    · right
      obtain ⟨b, hb, hl⟩ := List.mem_flatMap.mp hl
      have hacross := places_across harranged hnodes
      rw [hsplit] at hacross
      have hlater := (List.pairwise_cons.mp (List.pairwise_append.mp hacross).2.1).1 b hb
      refine hlater start ?_ l hl
      rw [hplaces]
      exact List.mem_cons_self

end Statements

end Surface
end AspAtlas
