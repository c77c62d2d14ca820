import AspAtlas.Proofs.Surface.Consumption
import AspAtlas.Proofs.Surface.Lexing
import AspAtlas.Proofs.Surface.Refusal
import AspAtlas.Proofs.Surface.Relocation
import AspAtlas.Proofs.Surface.StatementReading
import AspAtlas.Proofs.Text.Lines
import AspAtlas.Statement.Annotation
/-!
How far statements reach. The statements of a program share out its tokens, and each reaches from
its first token to the end of its last one, which is a dot or a closing bracket. Only where a
bracket may follow the dot and none does, a statement reaches on to the next token.
-/
namespace AspAtlas.Surface

/-- Whether a token can be the last one of a statement. -/
def Token.Closes (t : Token) : Prop := t.lexeme = .punct .dot ∨ t.lexeme = .punct .closeBracket

theorem Token.Closes.ne_finish {t : Token} (h : t.Closes) : t.lexeme ≠ .finish := by
  rcases h with h | h <;> simp [h]

/-- Whether a bracket may follow the dot of a statement. -/
def Statement.isOpen : Statement → Bool
  | .constant _ _ _ | .external _ _ _ _ => true
  | _ => false

/-- A statement made of some tokens, where `next` is the place of the token behind them. -/
def Covers (own : List Token) (next : Position) (s : Statement) : Prop :=
  ∃ last, own.getLast? = some last ∧ last.Closes ∧ s.span.begin = beginOf own ∧
    s.span.stop = if s.isOpen ∧ last.lexeme = .punct .dot then next else last.stop

/-- A statement is read from some tokens and leaves others. -/
def Takes (ts rest : List Token) (s : Statement) : Prop :=
  ∃ own, ts = own ++ rest ∧ Covers own (beginOf rest) s

/-- What is left starts with the second of two dots. -/
def SplitsDots (rest : List Token) : Prop := ∃ t more, rest = t :: more ∧ t.lexeme = .punct .dot

/-- A reader takes whole statements, or leaves the second of two dots. -/
def Delimits (reader : Reader Statement) : Prop :=
  ∀ ⦃ts : List Token⦄ ⦃s : Statement⦄ ⦃rest : List Token⦄, reader ts = some (s, rest) →
    Takes ts rest s ∨ SplitsDots rest

variable {n : Nat} {ts mid rest : List Token} {s : Statement} {stop : Position}

theorem endDot_cases (h : endDot ts = some (stop, rest)) :
    (∃ t, ts = t :: rest ∧ t.lexeme = .punct .dot ∧ t.stop = stop) ∨ SplitsDots rest := by
  rcases endDot_steps h with ⟨begin, rfl⟩ | ⟨begin, last, more, rfl, rfl, rfl⟩
  · exact .inl ⟨_, rfl, rfl, rfl⟩
  · exact .inr ⟨_, _, rfl, rfl⟩

theorem beginOf_append {own : List Token} (h : own ≠ []) : beginOf (own ++ rest) = beginOf own := by
  cases own with
  | nil => exact absurd rfl h
  | cons t own => rfl

/-- A statement whose last token was taken at the end of what precedes it. -/
theorem Takes.of_last {last : Token} (hmid : mid <:+ ts) (hlast : mid = last :: rest)
    (hcloses : last.Closes) (hbegin : s.span.begin = beginOf ts)
    (hstop : s.span.stop = if s.isOpen ∧ last.lexeme = .punct .dot then beginOf rest
      else last.stop) :
    Takes ts rest s := by
  obtain ⟨used, rfl⟩ := hmid
  subst hlast
  refine ⟨used ++ [last], by simp, last, by simp, hcloses, ?_, hstop⟩
  have hown : used ++ [last] ≠ [] := by simp
  rw [hbegin, List.append_cons, beginOf_append hown]

/-- A statement closed by its dot, if nothing may follow the dot. -/
theorem Takes.of_endDot (hmid : mid <:+ ts) (hdot : endDot mid = some (stop, rest))
    (hopen : s.isOpen = false) (hspan : s.span = ⟨beginOf ts, stop⟩) :
    Takes ts rest s ∨ SplitsDots rest := by
  rcases endDot_cases hdot with ⟨t, hmid', hlexeme, hstop⟩ | hsplit
  · refine .inl (.of_last hmid hmid' (.inl hlexeme) (by rw [hspan]) ?_)
    simp [hspan, hopen, hstop]
  · exact .inr hsplit

/-- A statement closed by its dot, if something might have followed the dot. -/
theorem Takes.of_endDot_open (hmid : mid <:+ ts) (hdot : endDot mid = some (stop, rest))
    (hopen : s.isOpen = true) (hspan : s.span = ⟨beginOf ts, beginOf rest⟩) :
    Takes ts rest s ∨ SplitsDots rest := by
  rcases endDot_cases hdot with ⟨t, hmid', hlexeme, hstop⟩ | hsplit
  · refine .inl (.of_last hmid hmid' (.inl hlexeme) (by rw [hspan]) ?_)
    simp [hspan, hopen, hlexeme]
  · exact .inr hsplit

/-- A statement closed by its bracket. -/
theorem Takes.of_bracket (hmid : mid <:+ ts)
    (hbracket : punct .closeBracket mid = some (stop, rest))
    (hspan : s.span = ⟨beginOf ts, stop⟩) : Takes ts rest s := by
  obtain ⟨begin, hmid'⟩ := punct_steps hbracket
  refine .of_last hmid hmid' (.inr rfl) (by rw [hspan]) ?_
  simp [hspan]

/-- No bracket stands where the second of two dots does. -/
theorem punct_of_splitsDots {symbol : Punct} (h : SplitsDots ts) (hne : symbol ≠ .dot) :
    punct symbol ts = none := by
  obtain ⟨t, more, rfl, hlexeme⟩ := h
  apply punct_eq_none
  rw [hlexeme]
  intro he
  cases he
  exact hne rfl

/-- Behind a dot that something follows nothing was split off. -/
theorem suffix_of_endDot {symbol : Punct} {more : List Token} {place : Position}
    (hdot : endDot ts = some (stop, rest)) (hnext : punct symbol rest = some (place, more))
    (hne : symbol ≠ .dot) : rest <:+ ts := by
  rcases endDot_cases hdot with ⟨t, rfl, -, -⟩ | hsplit
  · exact List.suffix_cons t rest
  · rw [punct_of_splitsDots hsplit hne] at hnext
    cases hnext

theorem Delimits.or {first second : Reader Statement} (hfirst : Delimits first)
    (hsecond : Delimits second) : Delimits fun ts => first ts <|> second ts := by
  intro ts s rest h
  rcases orElse_steps h with h | ⟨-, h⟩
  · exact hfirst h
  · exact hsecond h

theorem includeStatement_takes : Delimits includeStatement := by
  intro ts s rest h
  obtain ⟨_, target, begin, stop, left, last, hword, hdot, rfl⟩ := includeStatement_steps h
  have hmid := (keyword_consumes .includes hword).trans .cons
  exact Takes.of_endDot hmid.suffix hdot rfl rfl

theorem constantStatement_takes : Delimits (constantStatement n) := by
  intro ts s rest h
  obtain ⟨_, ts₁, name, ts₂, equal, ts₃, value, ts₄, dot, ts₅, hword, hname, hequal, hvalue,
    hdot, hmode⟩ :=
    constantStatement_steps h
  have hname := (keyword_consumes .const hword).trans (identifier_consumes hname)
  have hmid := (hname.trans (punct_consumes .equal hequal)).trans (term_consumes n hvalue)
  rcases hmode with ⟨stop, hmode, rfl⟩ | ⟨-, rfl, rfl⟩
  · obtain ⟨opened, ts₆, mode, ts₇, hopening, hmode, hclosing⟩ := bracketedName_steps hmode
    have hdot := hmid.of_suffix (suffix_of_endDot hdot hopening (by decide))
    have hinside := (punct_consumes .openBracket hopening).trans (identifier_consumes hmode)
    exact .inl (.of_bracket (hdot.trans hinside).suffix hclosing rfl)
  · exact Takes.of_endDot_open hmid.suffix hdot rfl rfl

theorem signature_takes {name digits : String}
    (h : signature ts = some ((name, digits, stop), rest)) :
    ∃ mid, Left ts mid ∧ endDot mid = some (stop, rest) := by
  obtain ⟨ts₁, slash, ts₂, ts₃, hname, hslash, hdigits, hdot⟩ := signature_steps h
  have hstart := (identifier_consumes hname).trans (punct_consumes .slash hslash)
  exact ⟨ts₃, hstart.trans (number_consumes hdigits), hdot⟩

theorem signatureStatement_takes (word : Keyword) (make : Span → String → String → Statement)
    (hopen : ∀ span name digits, (make span name digits).isOpen = false)
    (hspan : ∀ span name digits, (make span name digits).span = span) :
    Delimits (signatureStatement word make) := by
  intro ts s rest h
  obtain ⟨_, left, name, digits, stop, hword, hsignature, rfl⟩ := signatureStatement_steps h
  obtain ⟨mid, hmid, hdot⟩ := signature_takes hsignature
  exact Takes.of_endDot ((keyword_consumes word hword).trans hmid).suffix hdot (hopen _ _ _)
    (hspan _ _ _)

theorem showAllStatement_takes : Delimits showAllStatement := by
  intro ts s rest h
  obtain ⟨_, left, stop, hword, hdot, rfl⟩ := showAllStatement_steps h
  exact Takes.of_endDot (keyword_consumes .shows hword).suffix hdot rfl rfl

theorem showTermStatement_takes : Delimits (showTermStatement n) := by
  intro ts s rest h
  obtain ⟨_, ts₁, found, ts₂, body, ts₃, stop, hword, hfound, hbody, hdot, rfl⟩ :=
    showTermStatement_steps h
  have hstart := (keyword_consumes .shows hword).trans (term_consumes n hfound)
  have hmid := hstart.of_suffix (optional_suffix separatedBody_consumes hbody)
  exact Takes.of_endDot hmid.suffix hdot rfl rfl

theorem programStatement_takes : Delimits (programStatement n) := by
  intro ts s rest h
  obtain ⟨_, ts₁, name, ts₂, names, ts₃, stop, hword, hname, hnames, hdot, rfl⟩ :=
    programStatement_steps h
  have hstart := (keyword_consumes .program hword).trans (identifier_consumes hname)
  have hmid := hstart.of_suffix (optional_suffix parameterNames_consumes hnames)
  exact Takes.of_endDot hmid.suffix hdot rfl rfl

theorem externalStatement_takes : Delimits (externalStatement n) := by
  intro ts s rest h
  obtain ⟨_, ts₁, a, ts₂, found, last, ts₃, dot, ts₄, hword, hatom, hcondition, hdot, htype⟩ :=
    externalStatement_steps h
  have hstart := (keyword_consumes .external hword).trans (atom_consumes hatom)
  have hmid := hstart.of_suffix (condition?_suffix hcondition)
  rcases htype with ⟨type, stop, htype, rfl⟩ | ⟨-, rfl, rfl⟩
  · obtain ⟨opened, ts₅, ts₆, hopening, hfound, hclosing⟩ := bracketedTerm_steps htype
    have hdot := hmid.of_suffix (suffix_of_endDot hdot hopening (by decide))
    have hinside := (punct_consumes .openBracket hopening).trans (term_consumes n hfound)
    exact .inl (.of_bracket (hdot.trans hinside).suffix hclosing rfl)
  · exact Takes.of_endDot_open hmid.suffix hdot rfl rfl

theorem optimizeStatement_takes : Delimits (optimizeStatement n) := by
  intro ts s rest h
  obtain ⟨word, ts₁, opened, ts₂, elements, ts₃, closed, ts₄, stop, hword, hopening, helements,
    hclosing, hdot, rfl⟩ := optimizeStatement_steps h
  have hstart := (keywordWith_consumes _ hword).trans (punct_consumes .openBrace hopening)
  have hinside := hstart.of_suffix (semicolons_suffix optimizeElement_consumes helements)
  exact Takes.of_endDot (hinside.trans (punct_consumes .closeBrace hclosing)).suffix hdot rfl rfl

theorem weakStatement_takes : Delimits (weakStatement n) := by
  intro ts s rest h
  obtain ⟨arrow, ts₁, body, ts₂, dot, ts₃, opened, ts₄, w, ts₅, stop, harrow, hbody, hdot,
    hopening, hweight, hclosing, rfl⟩ := weakStatement_steps h
  have hstart := (punct_consumes .weakIf harrow).trans (body_consumes hbody)
  have hdot := hstart.of_suffix (suffix_of_endDot hdot hopening (by decide))
  have hinside := (punct_consumes .openBracket hopening).trans (weight_consumes hweight)
  exact .inl (.of_bracket (hdot.trans hinside).suffix hclosing rfl)

theorem headedRule_takes : Delimits (headedRule n) := by
  intro ts s rest h
  obtain ⟨head, ts₁, written, ts₂, stop, hhead, hbody, hdot, rfl⟩ := headedRule_steps h
  have hmid := (head_consumes hhead).of_suffix (optional_suffix arrowBody_consumes hbody)
  exact Takes.of_endDot hmid.suffix hdot rfl rfl

theorem constraintRule_takes : Delimits (constraintRule n) := by
  intro ts s rest h
  obtain ⟨body, left, stop, hbody, hdot, rfl⟩ := constraintRule_steps h
  exact Takes.of_endDot (arrowBody_consumes hbody).suffix hdot rfl rfl

theorem statement_takes : Delimits (statement n) :=
  includeStatement_takes.or <| constantStatement_takes.or <|
    (signatureStatement_takes .defined .defined (fun _ _ _ => rfl) fun _ _ _ => rfl).or <|
    showAllStatement_takes.or <|
    (signatureStatement_takes .shows .showSignature (fun _ _ _ => rfl) fun _ _ _ => rfl).or <|
    showTermStatement_takes.or <|
    programStatement_takes.or <| externalStatement_takes.or <| optimizeStatement_takes.or <|
    weakStatement_takes.or <| headedRule_takes.or constraintRule_takes

/-- Some statements, each with its tokens, that share out the tokens of a text up to `final`. -/
inductive Shares (final : Token) : List (List Token × Statement) → Prop
  | nil : Shares final []
  | cons {own : List Token} {s : Statement} {more : List (List Token × Statement)}
      (h : Covers own (beginOf (more.flatMap (·.1) ++ [final])) s) (hmore : Shares final more) :
      Shares final ((own, s) :: more)

/-- The statements of a program share out its tokens. -/
theorem statementsFrom_shares {k : Nat} {found : List Statement}
    (h : statementsFrom n k ts [] = some found) (hts : Finished ts) :
    ∃ runs final, found = runs.map (·.2) ∧ final.lexeme = .finish ∧
      ts = runs.flatMap (·.1) ++ [final] ∧ Shares final runs := by
  induction k generalizing ts found with
  | zero => cases h
  | succ k ih =>
    rcases statementsFrom_steps h with
      ⟨begin, stop, more, rfl, rfl⟩ | ⟨s, left, more, hstatement, hmore, rfl⟩
    · obtain rfl := hts.tail_eq_nil rfl
      exact ⟨[], _, rfl, rfl, rfl, .nil⟩
    · rcases statement_takes hstatement with ⟨own, rfl, hcovers⟩ | ⟨t, behind, rfl, hlexeme⟩
      · obtain ⟨last, hlast, hcloses, -⟩ := id hcovers
        obtain ⟨runs, final, rfl, hfinal, hrest, hshares⟩ :=
          ih hmore (hts.of_append hlast hcloses.ne_finish)
        refine ⟨(own, s) :: runs, final, by simp, hfinal, by simp [hrest], .cons ?_ hshares⟩
        rwa [hrest] at hcovers
      · -- neither a statement nor the end of the text starts with a dot
        rw [statementsFrom_dot hlexeme] at hmore
        cases hmore

/-- What lowers to some items when it was read from some tokens does so statement by statement. -/
theorem lowerProgram_groups {file : Path} {statements : List Statement} {items : List Item}
    (h : lowerProgram file statements = .ok items) :
    ∃ groups, items = groups.flatten ∧
      List.Forall₂ (fun s group => Statement.lower file s = .ok group) statements groups := by
  induction statements generalizing items with
  | nil =>
    cases h
    exact ⟨[], rfl, .nil⟩
  | cons s statements ih =>
    obtain ⟨group, more, hs, hmore, rfl⟩ := lowerProgram_cons_eq_ok h
    obtain ⟨groups, rfl, hall⟩ := ih hmore
    exact ⟨group :: groups, by simp, .cons hs hall⟩

theorem exists_statement_of_groups {file : Path} {statements : List Statement}
    {groups : List (List Item)}
    (h : List.Forall₂ (fun s group => Statement.lower file s = .ok group) statements groups)
    {item : Item}
    (hitem : item ∈ groups.flatten) :
    ∃ s ∈ statements, ∃ group, s.lower file = .ok group ∧ item ∈ group := by
  induction h with
  | nil => cases hitem
  | @cons s group _ _ hs _ ih =>
    rcases List.mem_append.mp hitem with hitem | hitem
    · exact ⟨s, List.mem_cons_self, group, hs, hitem⟩
    · obtain ⟨s', hs', found⟩ := ih hitem
      exact ⟨s', List.mem_cons_of_mem _ hs', found⟩

/-- The statement that an item was lowered from. -/
theorem exists_statement_of_parseItems {file : Path} {text : String} {items : List Item}
    {item : Item} (h : parseItems file text = .ok items) (hitem : item ∈ items) :
    ∃ statements, parse? text = some statements ∧
      ∃ s ∈ statements, ∃ group, s.lower file = .ok group ∧ item ∈ group := by
  obtain ⟨statements, hparse, hlower⟩ := lowerProgram_of_parseItems h
  obtain ⟨groups, rfl, hgroups⟩ := lowerProgram_groups hlower
  exact ⟨statements, hparse, exists_statement_of_groups hgroups hitem⟩

/-- The items of a text of one statement. -/
theorem parseItems_of_singleton {file : Path} {text : String} {s : Statement} {items : List Item}
    (h : parse? text = some [s]) (hlower : s.lower file = .ok items) :
    parseItems file text = .ok items := by
  have hprogram : lowerProgram file [s] = .ok items := by
    rw [lowerProgram_cons, hlower]
    exact congrArg Except.ok (List.append_nil items)
  simp only [parseItems, h, hprogram]

theorem kind_minimized (file : Path) (span : Span) (weight : Node) (spec : Weight)
    (body : List Node) : (minimized file span weight spec body).kind = .minimize := by
  unfold minimized
  cases spec.priority <;> rfl

/-- Statements that share out tokens, each with its tokens and the items that it lowers to. -/
theorem Shares.groups {file : Path} {final : Token} {shared : List (List Token × Statement)}
    {groups : List (List Item)} (h : Shares final shared)
    (hgroups : List.Forall₂ (fun s group => Statement.lower file s = .ok group)
      (shared.map (·.2)) groups) :
    ∃ runs : List (List Token × List Item),
      runs.flatMap (·.1) = shared.flatMap (·.1) ∧ runs.flatMap (·.2) = groups.flatten ∧
      ∀ before own group after, runs = before ++ (own, group) :: after →
        ∃ s, Covers own (beginOf (after.flatMap (·.1) ++ [final])) s ∧
          s.lower file = .ok group := by
  induction h generalizing groups with
  | nil =>
    cases hgroups
    exact ⟨[], rfl, rfl, by simp⟩
  | @cons own s more hcovers _ ih =>
    cases hgroups with
    | @cons _ group _ groups hlower hrest =>
      obtain ⟨runs, htokens, hitems, hruns⟩ := ih hrest
      refine ⟨(own, group) :: runs, by simp [htokens], by simp [hitems], ?_⟩
      intro before own' group' after heq
      cases before with
      | nil =>
        cases heq
        exact ⟨s, by rwa [htokens], hlower⟩
      | cons run before =>
        simp only [List.cons_append, List.cons.injEq] at heq
        exact hruns before own' group' after heq.2

/-- The kind of the nodes that a statement lowers to. -/
def Statement.nodeKind? : Statement → Option NodeKind
  | .includes .. => none
  | .constant .. => some .definition
  | .defined .. => some .defined
  | .showAll .. | .showSignature .. => some .showSignature
  | .showTerm .. => some .showTerm
  | .program .. => some .program
  | .external .. => some .external
  | .optimize .. | .weak .. => some .minimize
  | .rule .. => some .rule

theorem Statement.isOpen_iff {kind : NodeKind} (h : s.nodeKind? = some kind) :
    s.isOpen = true ↔ kind = .definition ∨ kind = .external := by
  cases s <;> cases h <;> simp [Statement.isOpen]

/-- The nodes of a statement have its kind, and unless it is one to optimise
there is one, in its place. -/
theorem node_of_lower {file : Path} {group : List Item} {node : Node} (h : s.lower file = .ok group)
    (hnode : .statement node ∈ group) :
    s.nodeKind? = some node.kind ∧ (node.kind ≠ .minimize →
      group = [.statement node] ∧ node.location = ⟨file, s.span.begin, s.span.stop⟩) := by
  cases s with
  | includes span target =>
    cases h
    simp at hnode
  | defined span name digits | showSignature span name digits =>
    simp only [Statement.lower, lowerSignature] at h
    split at h <;> cases h
    cases List.mem_singleton.mp hnode
    exact ⟨rfl, fun _ => ⟨rfl, rfl⟩⟩
  | optimize span maximize elements =>
    cases h
    obtain ⟨element, -, he⟩ := List.mem_map.mp hnode
    cases he
    have hkind : (element.lower file maximize).kind = .minimize := kind_minimized file ..
    exact ⟨congrArg some hkind.symm, fun hne => absurd hkind hne⟩
  | weak span body weight =>
    cases h
    cases List.mem_singleton.mp hnode
    have hkind := kind_minimized file span (weight.weight.lower file) weight (lowerBody file body)
    exact ⟨congrArg some hkind.symm, fun hne => absurd hkind hne⟩
  | _ =>
    cases h
    cases List.mem_singleton.mp hnode
    exact ⟨rfl, fun _ => ⟨rfl, rfl⟩⟩

/-- The node of a statement that is none to optimise has the span of the statement. -/
theorem location_of_lower {file : Path} {group : List Item} {node : Node}
    (h : s.lower file = .ok group) (hnode : .statement node ∈ group)
    (hkind : node.kind ≠ .minimize) :
    group = [.statement node] ∧ node.location = ⟨file, s.span.begin, s.span.stop⟩ ∧
      (s.isOpen = true ↔ node.kind = .definition ∨ node.kind = .external) := by
  obtain ⟨hsame, hone⟩ := node_of_lower h hnode
  obtain ⟨honly, hlocation⟩ := hone hkind
  exact ⟨honly, hlocation, Statement.isOpen_iff hsame⟩

end AspAtlas.Surface

namespace AspAtlas

open Surface

/-- How far a node reaches that was read from some tokens of a text, where `next` is the place of
the token behind them. -/
structure Extent (text : String) (own : List Token) (next : Position) (node : Node) : Prop where
  begins : node.location.begin = beginOf own
  ends : ∃ last, own.getLast? = some last ∧ last.Closes ∧
    node.location.stop =
      if (node.kind = .definition ∨ node.kind = .external) ∧ last.lexeme = .punct .dot then next
      else last.stop
  /-- Where the node ends with its last token, a comment behind that
  token is one of its comments. -/
  comments : ∀ last, own.getLast? = some last → node.location.stop = last.stop →
    ∃ before behind, text.toList = before ++ behind ∧ last.stop = advanceBy Position.start before ∧
      ∀ a : Annotator, a.lines = Text.linesOf text →
        a.commentsFor node.location = a.commentsAbove node.location.line ++
          (Annotator.commentOf? a.commentMarker (Text.restOfLine behind)).toList

/-- The comment behind a place in a text, unless it is the start of a line. -/
theorem Annotator.commentBehind?_eq {a : Annotator} {text : String}
    {before behind : List Char} {c : Char}
    (htext : text.toList = before ++ behind) (hlast : before.getLast? = some c) (hc : c ≠ '\n')
    (ha : a.lines = Text.linesOf text) :
    a.commentBehind? (advanceBy Position.start before) =
      commentOf? a.commentMarker (Text.restOfLine behind) := by
  obtain ⟨line, hline, hdrop⟩ := Text.lines_at before behind hlast hc
  have hpositive : (advanceBy Position.start before).line ≠ 0 := by
    have hle := le_advanceBy Position.start before
    rw [Position.le_iff] at hle
    simp only [Position.start] at hle ⊢
    omega
  rw [commentBehind?, if_neg hpositive, ha, Text.linesOf, htext, List.getElem?_map, hline]
  simp [hdrop]

/-- The token that closes a statement stands in the text, and behind it the line goes on. -/
theorem Surface.Token.Closes.place {t : Token} {cs : List Char} (ht : t ∈ tokens cs)
    (hcloses : t.Closes) :
    ∃ before behind c, cs = before ++ behind ∧ t.stop = advanceBy Position.start before ∧
      before.getLast? = some c ∧ c ≠ '\n' := by
  obtain ⟨before, used, behind, hcs, -, hstop, hused⟩ := mem_lex ht hcloses.ne_finish
  rcases hcloses with hdot | hbracket
  · have hused : used = ['.'] := (hused _ hdot).trans (by decide)
    exact ⟨before ++ used, behind, '.', hcs, hstop, by simp [hused], by decide⟩
  · have hused : used = [']'] := (hused _ hbracket).trans (by decide)
    exact ⟨before ++ used, behind, ']', hcs, hstop, by simp [hused], by decide⟩

/-- The statements of a file share out its tokens, and each node reaches from its first token to the
end of its last one. Only a constant definition or an external atom without a bracket behind its dot
reaches on to the next token. -/
theorem parseItems_extents {file : Path} {text : String} {items : List Item}
    (h : parseItems file text = .ok items) :
    ∃ (runs : List (List Token × List Item)) (final : Token),
      final.lexeme = .finish ∧ tokens text.toList = runs.flatMap (·.1) ++ [final] ∧
      items = runs.flatMap (·.2) ∧
      ∀ before own group after, runs = before ++ (own, group) :: after →
        ∀ node, .statement node ∈ group → node.kind ≠ .minimize →
          group = [.statement node] ∧
            Extent text own (beginOf (after.flatMap (·.1) ++ [final])) node := by
  simp only [parseItems] at h
  cases hparse : parse? text with
  | none => simp [hparse] at h
  | some statements =>
  cases hlower : lowerProgram file statements with
  | error digits => simp [hparse, hlower] at h
  | ok found =>
  simp only [hparse, hlower, Except.ok.injEq] at h
  subst h
  obtain ⟨shared, final, rfl, hfinal, htokens, hshares⟩ :=
    statementsFrom_shares hparse (lex_finished Position.start text.toList)
  obtain ⟨groups, hitems, hgroups⟩ := lowerProgram_groups hlower
  obtain ⟨runs, hsame, hflat, hruns⟩ := hshares.groups hgroups
  refine ⟨runs, final, hfinal, by rw [hsame, ← htokens], by rw [hitems, hflat], ?_⟩
  intro before own group after heq node hnode hkind
  obtain ⟨s, ⟨last, hlast, hcloses, hbegin, hstop⟩, hs⟩ := hruns before own group after heq
  obtain ⟨honly, hlocation, hopen⟩ := location_of_lower hs hnode hkind
  refine ⟨honly, ?_, ⟨last, hlast, hcloses, ?_⟩, ?_⟩
  · rw [hlocation]
    exact hbegin
  · simp only [hlocation, hstop, hopen]
  · intro last' hlast' hend
    rw [hlast, Option.some.injEq] at hlast'
    subst hlast'
    have hmem : last ∈ tokens text.toList := by
      have hin : last ∈ own := List.mem_of_getLast? hlast
      rw [htokens, ← hsame, heq]
      simp [hin]
    obtain ⟨ahead, behind, c, htext, hplace, hc, hne⟩ := hcloses.place hmem
    refine ⟨ahead, behind, htext, hplace, ?_⟩
    intro a ha
    rw [Annotator.commentsFor, hend, hplace, Annotator.commentBehind?_eq htext hc hne ha]

/-- A mode behind the dot ends a constant definition, and a type an external atom. -/
theorem parseItems_extents_of_brackets :
    ∃ (items : List Item) (runs : List (List Token × List Item)) (final : Token),
      parseItems ⟨"p.lp"⟩ "#const n = 3. [override]\n#external e. [true] %- input" = .ok items ∧
      tokens "#const n = 3. [override]\n#external e. [true] %- input".toList =
        runs.flatMap (·.1) ++ [final] ∧ items = runs.flatMap (·.2) ∧
      (statementsOf items).map (·.location.stop) = [⟨1, 25⟩, ⟨2, 20⟩] := by
  have hread :
      (parseItems ⟨"p.lp"⟩ "#const n = 3. [override]\n#external e. [true] %- input").toOption.map
        (fun items => (statementsOf items).map (·.location.stop)) = some [⟨1, 25⟩, ⟨2, 20⟩] := by
    decide +kernel
  obtain ⟨items, hparse, hstops⟩ := exists_ok_of_toOption hread
  obtain ⟨runs, final, -, htokens, hitems, -⟩ := parseItems_extents hparse
  exact ⟨items, runs, final, hparse, htokens, hitems, hstops⟩

/-- A constant definition without a mode ends where none of the tokens does: at the begin of the
next statement, two lines below its dot. -/
theorem definition_ends_with_no_token :
    ∃ items n, parseItems ⟨"p.lp"⟩ "#const n = 3.\n\na." = .ok items ∧ .statement n ∈ items ∧
      n.kind = .definition ∧
      ∀ t ∈ tokens "#const n = 3.\n\na.".toList, n.location.stop ≠ t.stop := by
  have hread : (parseItems ⟨"p.lp"⟩ "#const n = 3.\n\na.").toOption.map (fun items =>
      (statementsOf items).any fun n => n.kind = .definition ∧
        ∀ t ∈ tokens "#const n = 3.\n\na.".toList, n.location.stop ≠ t.stop) = some true := by
    decide +kernel
  obtain ⟨items, hparse, hany⟩ := exists_ok_of_toOption hread
  obtain ⟨n, hn, hstop⟩ := List.any_eq_true.mp hany
  have hstop := of_decide_eq_true hstop
  exact ⟨items, n, hparse, mem_statementsOf.mp hn, hstop.1, hstop.2⟩

end AspAtlas
