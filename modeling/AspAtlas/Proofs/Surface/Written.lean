import AspAtlas.Proofs.Surface.Spelling
/-!
Terms without superfluous parentheses or blanks, as a grammar on units. Where two units of such a
term meet, neither goes on with the other: its characters are cut into the same units again.
-/
namespace AspAtlas.Surface

variable {c : Char} {cs post : List Char} {l : Lexeme} {ls a b : List Lexeme}

/-- The units that are a term on their own, but for names. -/
def Lexeme.standsAlone : Lexeme → Bool
  | .var _ | .number _ | .quoted _ => true
  | .keyword word => word ∈ [Keyword.supremum, .sup, .infimum, .inf]
  | _ => false

/-- The parts of a term: an operand, a whole term, the further operands of a chain, further
arguments and further argument lists with their number, and a pool with the number of its first
arguments and of its further lists. -/
inductive Part where
  | operand
  | chain
  | operators
  | members (count : Nat)
  | lists (count : Nat)
  | pool (arguments others : Nat)

/-- Units that make up a part of a term; only more or less than one term takes parentheses. -/
inductive Written : Part → List Lexeme → Prop
  | alone {l : Lexeme} (hl : l.standsAlone = true) (h : l.Spelled) : Written .operand [l]
  | name {name : String} (h : (Lexeme.identifier name).Spelled) :
      Written .operand [.identifier name]
  | call {name : String} {k j : Nat} {ps : List Lexeme} (h : (Lexeme.identifier name).Spelled)
      (hp : Written (.pool k j) ps) :
      Written .operand (.identifier name :: .punct .opening :: (ps ++ [.punct .closing]))
  | unit : Written .operand [.punct .opening, .punct .closing]
  | tuple {k j : Nat} {ps : List Lexeme} (hp : Written (.pool k j) ps) (hmore : (k, j) ≠ (1, 0)) :
      Written .operand (.punct .opening :: (ps ++ [.punct .closing]))
  | absolute {a : List Lexeme} (ha : Written .chain a) :
      Written .operand (.punct .bar :: (a ++ [.punct .bar]))
  | negation {a : List Lexeme} (ha : Written .operand a) : Written .operand (.punct .minus :: a)
  | chain {a os : List Lexeme} (ha : Written .operand a) (hos : Written .operators os) :
      Written .chain (a ++ os)
  | noOperators : Written .operators []
  | operator {s : Punct} {a os : List Lexeme} (hs : s.isArithmetic = true) (ha : Written .operand a)
      (hos : Written .operators os) : Written .operators (.punct s :: (a ++ os))
  | noMembers : Written (.members 0) []
  | member {k : Nat} {a ms : List Lexeme} (ha : Written .chain a) (hms : Written (.members k) ms) :
      Written (.members (k + 1)) (.punct .comma :: (a ++ ms))
  | noLists : Written (.lists 0) []
  | list {k j : Nat} {a ms os : List Lexeme} (ha : Written .chain a) (hms : Written (.members k) ms)
      (hos : Written (.lists j) os) :
      Written (.lists (j + 1)) (.punct .semicolon :: (a ++ (ms ++ os)))
  | pool {k j : Nat} {a ms os : List Lexeme} (ha : Written .chain a) (hms : Written (.members k) ms)
      (hos : Written (.lists j) os) : Written (.pool (k + 1) j) (a ++ (ms ++ os))

section Closure

theorem Written.operators_append (ha : Written .operators a) (hb : Written .operators b) :
    Written .operators (a ++ b) := by
  generalize hpart : Part.operators = part at ha
  induction ha with
  | noOperators => exact hb
  | operator hs hx _ _ ih =>
    rw [List.cons_append, List.append_assoc]
    exact .operator hs hx (ih hpart)
  | _ => cases hpart

/-- Two terms with an operator between them are one chain. -/
theorem Written.join {s : Punct} (ha : Written .chain a) (hs : s.isArithmetic = true)
    (hb : Written .chain b) : Written .chain (a ++ .punct s :: b) := by
  cases ha with
  | chain hx hos =>
    cases hb with
    | chain hy hmore =>
      rw [List.append_assoc]
      exact .chain hx (hos.operators_append (.operator hs hy hmore))

/-- A sign in front of a term belongs to its first operand. -/
theorem Written.negate (ha : Written .chain a) : Written .chain (.punct .minus :: a) := by
  cases ha with
  | chain hx hos => exact .chain (.negation hx) hos

theorem Written.single (ha : Written .operand a) : Written .chain a := by
  simpa using Written.chain ha .noOperators

end Closure

/-- The characters of a list of units. -/
def chars (ls : List Lexeme) : List Char := ls.flatMap Lexeme.chars

@[simp] theorem chars_nil : chars [] = [] := rfl

@[simp] theorem chars_cons (l : Lexeme) (ls : List Lexeme) :
    chars (l :: ls) = l.chars ++ chars ls := rfl

@[simp] theorem chars_append (ls ms : List Lexeme) : chars (ls ++ ms) = chars ls ++ chars ms :=
  List.flatMap_append

section Cutting

/-- The characters that a term starts with. -/
def opensTerm (c : Char) : Bool := isWordChar c || c ∈ ['"', '#', '-', '(', '|']

/-- A text that starts like a term. -/
def OpensTerm (cs : List Char) : Prop := ∃ c rest, cs = c :: rest ∧ opensTerm c = true

theorem OpensTerm.append (h : OpensTerm cs) (post : List Char) : OpensTerm (cs ++ post) := by
  obtain ⟨c, rest, rfl, hc⟩ := h
  exact ⟨c, rest ++ post, rfl, hc⟩

theorem opensTerm_identifier {name : String} (h : (Lexeme.identifier name).Spelled) :
    OpensTerm (Lexeme.identifier name).chars := by
  obtain ⟨c, ds, hchars, -, hscan⟩ := h
  have hword := word?_of_scan (hscan [] (by simp [Lexeme.StopsAt])) (.inl ⟨name, rfl⟩)
  refine ⟨c, ds, hchars, ?_⟩
  cases hc : isWordChar c with
  | true => simp [opensTerm, hc]
  | false =>
    rw [word?_eq_none hc] at hword
    cases hword

theorem opensTerm_standsAlone (hl : l.standsAlone = true) (h : l.Spelled) : OpensTerm l.chars := by
  obtain ⟨c, ds, hchars, -, hscan⟩ := h
  have hscan := hscan [] (by simp [Lexeme.StopsAt])
  refine ⟨c, ds, hchars, ?_⟩
  cases l with
  | var name =>
    cases hc : isWordChar c with
    | true => simp [opensTerm, hc]
    | false =>
      have hword := word?_of_scan hscan (.inr ⟨name, rfl⟩)
      rw [word?_eq_none hc] at hword
      cases hword
  | number digits =>
    cases hc : c.isDigit with
    | true => simp [opensTerm, isWordChar_of_isDigit hc]
    | false =>
      have hnumber := number?_of_scan hscan
      rw [number?_eq_none hc] at hnumber
      cases hnumber
  | quoted text =>
    by_cases hc : c = '"'
    · rw [hc]
      rfl
    · have hquoted := quoted?_of_scan hscan
      rw [quoted?_eq_none hc] at hquoted
      cases hquoted
  | keyword word =>
    obtain ⟨es, hes⟩ := toList_keyword word
    rw [Lexeme.chars, hes, List.cons.injEq] at hchars
    rw [← hchars.1]
    rfl
  | _ => cases hl

/-- No symbol but the colon goes on with the start of a term. -/
theorem stopsAt_opensTerm {s : Punct} (hs : s ≠ .colon) (h : OpensTerm cs) :
    (Lexeme.punct s).StopsAt cs := by
  obtain ⟨c, rest, rfl, hc⟩ := h
  rintro e he
  cases he
  have hnext : (nextOf Punct.text Punct.all s).all (fun e => opensTerm e == false) = true := by
    cases s <;> first | decide | exact absurd rfl hs
  simp only [Lexeme.goesOn, decide_eq_false_iff_not]
  intro hmem
  have hnot := List.all_eq_true.mp hnext c hmem
  simp [hc] at hnot

/-- A unit that only a word could go on with is cut off in front of everything else. -/
theorem cutInto_of_goesOn (h : l.Spelled) (hends : ∀ e, isWordChar e = false → l.goesOn e = false) :
    CutInto (chars [l]) [l] := by
  intro post hpost
  rw [chars_cons, chars_nil, List.append_nil]
  exact units_spelled h fun e he => hends e (hpost e he)

theorem goesOn_standsAlone (h : l.standsAlone = true) (e : Char) (he : isWordChar e = false) :
    l.goesOn e = false := by
  cases l with
  | var name => exact he
  | number digits => exact notDigit_of_notWord he
  | quoted text => rfl
  | keyword word =>
    have hnext : (nextOf Keyword.text Keyword.all word).all isWordChar = true := by
      cases word <;> first | decide | cases h
    simp only [Lexeme.goesOn, decide_eq_false_iff_not]
    intro hmem
    have hword := List.all_eq_true.mp hnext e hmem
    simp [he] at hword
  | _ => cases h

/-- Units that are read back from their characters, the first of which may start a term. -/
structure Leads (ls : List Lexeme) : Prop where
  cut : CutInto (chars ls) ls
  opens : OpensTerm (chars ls)

/-- Units that are read back from their characters, the first of which may stand behind a term. -/
structure Trails (ls : List Lexeme) : Prop where
  cut : CutInto (chars ls) ls
  stops : StopsWords (chars ls)

theorem Leads.append (ha : Leads a) (hb : Trails b) : Leads (a ++ b) where
  cut := by
    rw [chars_append]
    exact ha.cut.append hb.cut hb.stops
  opens := by
    rw [chars_append]
    exact ha.opens.append _

theorem Trails.append (ha : Trails a) (hb : Trails b) : Trails (a ++ b) where
  cut := by
    rw [chars_append]
    exact ha.cut.append hb.cut hb.stops
  stops := by
    rw [chars_append]
    cases hchars : chars a with
    | nil => exact hb.stops
    | cons c cs =>
      have hstops := ha.stops
      rw [hchars] at hstops
      exact hstops

theorem Trails.nil : Trails [] := ⟨fun _ _ => rfl, by simp [StopsWords]⟩

theorem Leads.cut_punct {s : Punct} (h : Leads a) (hs : s ≠ .colon) :
    CutInto (chars (.punct s :: a)) (.punct s :: a) := by
  intro post hpost
  have hstop := stopsAt_opensTerm hs (h.opens.append post)
  rw [chars_cons, List.append_assoc, units_spelled (punct_spelled s) hstop, h.cut post hpost,
    List.cons_append]

theorem stopsWords_punct (s : Punct) (ls : List Lexeme) : StopsWords (chars (.punct s :: ls)) := by
  obtain ⟨d, ds, hds, hd⟩ := toList_punct s
  rw [chars_cons, Lexeme.chars, hds]
  rintro e he
  cases he
  exact hd.notWord

/-- A symbol behind a term, and another term behind the symbol. -/
theorem Leads.behind {s : Punct} (h : Leads a) (hs : s ≠ .colon) : Trails (.punct s :: a) :=
  ⟨h.cut_punct hs, stopsWords_punct s a⟩

/-- A symbol that a term may start with, and another term behind it. -/
theorem Leads.under {s : Punct} (h : Leads a) (hs : s ∈ [Punct.minus, .opening, .bar]) :
    Leads (.punct s :: a) := by
  simp only [List.mem_cons, List.not_mem_nil, or_false] at hs
  rcases hs with rfl | rfl | rfl
  · exact ⟨h.cut_punct (by decide), '-', _, rfl, rfl⟩
  · exact ⟨h.cut_punct (by decide), '(', _, rfl, rfl⟩
  · exact ⟨h.cut_punct (by decide), '|', _, rfl, rfl⟩

/-- Brackets and bars go on with nothing. -/
theorem cutInto_bracket {s : Punct} (h : s ∈ [Punct.opening, .closing, .bar]) :
    CutInto (chars [.punct s]) [.punct s] := by
  refine cutInto_of_goesOn (punct_spelled s) fun e _ => ?_
  have hnext : nextOf Punct.text Punct.all s = [] := by
    simp only [List.mem_cons, List.not_mem_nil, or_false] at h
    rcases h with rfl | rfl | rfl <;> decide
  simp [Lexeme.goesOn, hnext]

theorem Trails.closing : Trails [.punct .closing] :=
  ⟨cutInto_bracket (by decide), stopsWords_punct _ _⟩

theorem Trails.bar : Trails [.punct .bar] := ⟨cutInto_bracket (by decide), stopsWords_punct _ _⟩

/-- Where the text of a part stands. -/
def Part.Stands : Part → List Lexeme → Prop
  | .operand, ls | .chain, ls | .pool _ _, ls => Leads ls
  | .operators, ls | .members _, ls | .lists _, ls => Trails ls

/-- The characters of a part are cut into its units, whatever follows. -/
theorem Written.stands {part : Part} (h : Written part ls) : part.Stands ls := by
  induction h with
  | alone hl h =>
    exact ⟨cutInto_of_goesOn h (goesOn_standsAlone hl),
      by simpa using opensTerm_standsAlone hl h⟩
  | name h => exact ⟨cutInto_of_goesOn h fun _ he => he, by simpa using opensTerm_identifier h⟩
  | call h _ ih =>
    have hname : Leads [.identifier _] :=
      ⟨cutInto_of_goesOn h fun _ he => he, by simpa using opensTerm_identifier h⟩
    exact hname.append ((Leads.append ih .closing).behind (by decide))
  | unit =>
    have hopening : Leads [.punct .opening] := ⟨cutInto_bracket (by decide), '(', [], rfl, rfl⟩
    exact hopening.append .closing
  | tuple _ _ ih => exact (Leads.append ih .closing).under (by decide)
  | absolute _ ih => exact (Leads.append ih .bar).under (by decide)
  | negation _ ih => exact Leads.under ih (by decide)
  | chain _ _ iha ihos => exact Leads.append iha ihos
  | noOperators => exact .nil
  | operator hs _ _ iha ihos =>
    refine (Leads.append iha ihos).behind ?_
    rintro rfl
    cases hs
  | noMembers => exact .nil
  | member _ _ iha ihms => exact (Leads.append iha ihms).behind (by decide)
  | noLists => exact .nil
  | list _ _ _ iha ihms ihos =>
    exact (Leads.append iha (Trails.append ihms ihos)).behind (by decide)
  | pool _ _ _ iha ihms ihos => exact Leads.append iha (Trails.append ihms ihos)

end Cutting

end AspAtlas.Surface
