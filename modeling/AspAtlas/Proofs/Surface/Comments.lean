import AspAtlas.Proofs.Grammar.Units
import AspAtlas.Proofs.Surface.AlikeStatements
import AspAtlas.Proofs.Surface.Context
import Mathlib.Data.List.Infix
/-!
Comments. A scan from left to right puts one blank in place of every comment; the text keeps its
units, so that it is read as before.
-/
namespace AspAtlas

namespace Surface

/-- Where a scan stands: between other things, in a quoted text, behind its backslash, in a comment
up to the end of its line, or in front of the first character, inside or in front of the last
character of a block comment. -/
inductive Scanning where
  | text
  | quoted
  | escaped
  | line
  | opening
  | block
  | closing

/-- Whether what follows a percent sign makes it open a block comment that is closed. -/
def opensBlock : List Char → Bool
  | '*' :: inside => decide (['*', '%'] <:+: inside)
  | _ => false

/-- A text with one blank in place of every comment. -/
def blankComments : Scanning → List Char → List Char
  | _, [] => []
  | .text, c :: cs =>
    if c = '%' then ' ' :: blankComments (if opensBlock cs then .opening else .line) cs
    else c :: blankComments (if c = '"' then .quoted else .text) cs
  | .quoted, c :: cs =>
    c :: blankComments (if c = '\\' then .escaped else if c = '"' then .text else .quoted) cs
  | .escaped, c :: cs => c :: blankComments .quoted cs
  | .line, c :: cs =>
    if c = '\n' ∨ c = '\r' then c :: blankComments .text cs else blankComments .line cs
  | .opening, _ :: cs => blankComments .block cs
  | .block, c :: cs => blankComments (if c = '*' ∧ cs.head? = some '%' then .closing else .block) cs
  | .closing, _ :: cs => blankComments .text cs

variable {c : Char} {cs used rest : List Char} {lexeme : Lexeme}

theorem blankComments_cons (hcomment : c ≠ '%') (hquote : c ≠ '"') :
    blankComments .text (c :: cs) = c :: blankComments .text cs := by
  simp [blankComments, hcomment, hquote]

example : blankComments .text
    ['p', '.', '%', '*', '.', '*', '%', 'q', '"', '%', '"', '%', '.', '\n'] =
    ['p', '.', ' ', 'q', '"', '%', '"', ' ', '\n'] := by
  decide

section Quotes

theorem quotedTail?_cons (hquote : c ≠ '"') (hslash : c ≠ '\\') (cs : List Char) :
    quotedTail? (c :: cs) = (quotedTail? cs).map fun found => (c :: found.1, found.2) := by
  rw [quotedTail?]
  · intro d ds he _
    exact hslash he
  · exact hquote

/-- A backslash that takes no character with it is not in a quoted text. -/
theorem ne_slash_of_quotedTail? (h : quotedTail? cs = some (used, rest))
    (hescape : ∀ d ds, c = '\\' → cs = d :: ds → False) : c ≠ '\\' := by
  intro he
  cases cs with
  | nil => cases h
  | cons d ds => exact hescape d ds he rfl

/-- A quoted text is kept, and the scan goes on behind it. -/
theorem blankComments_quoted (h : quotedTail? cs = some (used, rest)) :
    blankComments .quoted cs = used ++ blankComments .text rest := by
  fun_induction quotedTail? cs generalizing used with
  | case1 => cases h
  | case2 c cs ih =>
    simp only [Option.map_eq_some_iff, Prod.exists, Prod.mk.injEq] at h
    obtain ⟨inside, after, hinside, rfl, rfl⟩ := h
    simp [blankComments, ih hinside]
  | case3 cs =>
    cases h
    simp [blankComments]
  | case4 c cs hescape hquote ih =>
    simp only [Option.map_eq_some_iff, Prod.exists, Prod.mk.injEq] at h
    obtain ⟨inside, after, hinside, rfl, rfl⟩ := h
    have hslash := ne_slash_of_quotedTail? hinside hescape
    have hplain : c ≠ '"' := fun he => hquote he
    simp [blankComments, hplain, hslash, ih hinside]

/-- Behind a quote that is never closed a text stays as it is. -/
theorem blankComments_open (h : quotedTail? cs = none) : blankComments .quoted cs = cs := by
  fun_induction quotedTail? cs with
  | case1 => rfl
  | case2 c cs ih =>
    simp only [Option.map_eq_none_iff] at h
    simp [blankComments, ih h]
  | case3 cs => cases h
  | case4 c cs hescape hquote ih =>
    simp only [Option.map_eq_none_iff] at h
    have hplain : c ≠ '"' := fun he => hquote he
    by_cases hslash : c = '\\'
    · cases cs with
      | nil => simp [blankComments]
      | cons d ds => exact absurd rfl (hescape d ds hslash)
    · simp [blankComments, hplain, hslash, ih h]

/-- A quoted text is found whatever stands behind it. -/
theorem quotedTail?_used_append (h : quotedTail? cs = some (used, rest)) (other : List Char) :
    quotedTail? (used ++ other) = some (used, other) := by
  fun_induction quotedTail? cs generalizing used with
  | case1 => cases h
  | case2 c cs ih =>
    simp only [Option.map_eq_some_iff, Prod.exists, Prod.mk.injEq] at h
    obtain ⟨inside, after, hinside, rfl, rfl⟩ := h
    simp [quotedTail?, ih hinside]
  | case3 cs =>
    cases h
    rfl
  | case4 c cs hescape hquote ih =>
    simp only [Option.map_eq_some_iff, Prod.exists, Prod.mk.injEq] at h
    obtain ⟨inside, after, hinside, rfl, rfl⟩ := h
    have hslash := ne_slash_of_quotedTail? hinside hescape
    have hplain : c ≠ '"' := fun he => hquote he
    rw [List.cons_append, quotedTail?_cons hplain hslash, ih hinside]
    rfl

end Quotes

section Gaps

/-- A block comment is closed if its end stands anywhere behind its begin. -/
theorem blockComment?_isSome (cs : List Char) :
    (blockComment? cs).isSome = decide (['*', '%'] <:+: cs) := by
  fun_induction blockComment? cs with
  | case1 => rfl
  | case2 rest =>
    have hinside : ['*', '%'] <:+: '*' :: '%' :: rest := ⟨[], rest, rfl⟩
    simp [hinside]
  | case3 c cs hopen ih =>
    rw [Option.isSome_map, ih, decide_eq_decide, List.infix_cons_iff]
    constructor
    · exact .inr
    · rintro (hstarts | hinside)
      · obtain ⟨rest, hrest⟩ := hstarts
        cases hrest
        exact absurd rfl (hopen rest rfl)
      · exact hinside

theorem blankComments_block (h : blockComment? cs = some (used, rest)) :
    blankComments .block cs = blankComments .text rest := by
  fun_induction blockComment? cs generalizing used with
  | case1 => cases h
  | case2 rest =>
    cases h
    simp [blankComments]
  | case3 c cs hopen ih =>
    simp only [Option.map_eq_some_iff, Prod.exists, Prod.mk.injEq] at h
    obtain ⟨inside, after, hinside, -, rfl⟩ := h
    have hgoes : ¬ (c = '*' ∧ cs.head? = some '%') := by
      rintro ⟨hstar, hhead⟩
      obtain ⟨ds, rfl⟩ := List.head?_eq_some_iff.mp hhead
      exact hopen ds hstar rfl
    rw [blankComments, if_neg hgoes, ih hinside]

theorem blankComments_line (cs : List Char) :
    blankComments .line cs = blankComments .text (cs.dropWhile inLine) := by
  induction cs with
  | nil => rfl
  | cons c cs ih =>
    by_cases hend : c = '\n' ∨ c = '\r'
    · have hstops : inLine c = false := by
        rcases hend with rfl | rfl <;> rfl
      rw [blankComments, if_pos hend, List.dropWhile_cons, hstops]
      rcases hend with rfl | rfl <;> exact (blankComments_cons (by decide) (by decide)).symm
    · have hgoes : inLine c = true := by simpa [inLine, not_or] using hend
      rw [blankComments, if_neg hend, ih, List.dropWhile_cons, hgoes, if_pos rfl]

/-- A scan goes on behind a comment. -/
theorem blankComments_comment (cs : List Char) :
    blankComments .text ('%' :: cs) = ' ' :: blankComments .text (comment cs).2 := by
  cases hopens : opensBlock cs with
  | true =>
    obtain ⟨inside, rfl⟩ : ∃ inside, cs = '*' :: inside := by
      unfold opensBlock at hopens
      split at hopens
      · exact ⟨_, rfl⟩
      · cases hopens
    obtain ⟨⟨used, rest⟩, hblock⟩ : ∃ found, blockComment? inside = some found :=
      Option.isSome_iff_exists.mp ((blockComment?_isSome inside).trans hopens)
    have hcomment : (comment ('*' :: inside)).2 = rest := by simp [comment, hblock]
    rw [blankComments, if_pos rfl, hopens, if_pos rfl, hcomment, ← blankComments_block hblock]
    rfl
  | false =>
    have hcomment : comment cs = (cs.takeWhile inLine, cs.dropWhile inLine) := by
      refine comment_eq_line fun inside he => ?_
      subst he
      have hnever : (blockComment? inside).isSome = false :=
        (blockComment?_isSome inside).trans hopens
      simpa using hnever
    rw [blankComments, if_pos rfl, hopens, if_neg Bool.false_ne_true, hcomment, blankComments_line]

/-- A gap stays a gap, and a comment becomes one. -/
theorem gap?_blankComments (h : gap? cs = some (used, rest)) :
    ∃ skipped, gap? (blankComments .text cs) = some (skipped, blankComments .text rest) := by
  cases cs with
  | nil => cases h
  | cons c cs =>
    simp only [gap?] at h
    by_cases hspace : isSpace c = true
    · rw [if_pos hspace] at h
      cases h
      have hcomment : c ≠ '%' := by
        rintro rfl
        cases hspace
      have hquote : c ≠ '"' := by
        rintro rfl
        cases hspace
      rw [blankComments_cons hcomment hquote]
      exact ⟨[c], by rw [gap?, if_pos hspace]⟩
    · rw [if_neg hspace] at h
      by_cases hcomment : c = '%'
      · subst hcomment
        cases h
        rw [blankComments_comment]
        exact ⟨[' '], rfl⟩
      · rw [if_neg hcomment] at h
        cases h

theorem gap?_eq_none (h : gap? (c :: cs) = none) : isSpace c = false ∧ c ≠ '%' := by
  simp only [gap?] at h
  split at h
  · cases h
  · rename_i hspace
    split at h
    · cases h
    · rename_i hcomment
      exact ⟨Bool.eq_false_iff.mpr hspace, hcomment⟩

end Gaps

section Units

/-- A run of characters ends at a comment or its blank alike, and at a quote. -/
theorem takeWhile_blankComments {p : Char → Bool} (hcomment : p '%' = false)
    (hblank : p ' ' = false) (hquote : p '"' = false) (cs : List Char) :
    (blankComments .text cs).takeWhile p = cs.takeWhile p ∧
      (blankComments .text cs).dropWhile p = blankComments .text (cs.dropWhile p) := by
  induction cs with
  | nil => exact ⟨rfl, rfl⟩
  | cons c cs ih =>
    by_cases hc : c = '%'
    · subst hc
      simp [blankComments_comment, hcomment, hblank]
    · by_cases hq : c = '"'
      · subst hq
        simp [blankComments, hquote]
      · rw [blankComments_cons hc hq]
        cases hp : p c with
        | true => simp [hp, ih]
        | false => simp [hp, blankComments_cons hc hq]

/-- A spelling without blanks, comments and quotes. -/
def isSolid (spelling : String) : Bool :=
  spelling.toList.all fun c => c != '%' && c != '"' && c != ' '

theorem afterLead?_blankComments {lead : List Char}
    (h : lead.all (fun c => c != '%' && c != '"' && c != ' ') = true) (cs : List Char) :
    Text.afterLead? lead (blankComments .text cs) =
      (Text.afterLead? lead cs).map (blankComments .text) := by
  induction lead generalizing cs with
  | nil => rfl
  | cons d ds ih =>
    simp only [List.all_cons, Bool.and_eq_true, bne_iff_ne] at h
    obtain ⟨⟨⟨hcomment, hquote⟩, hblank⟩, hds⟩ := h
    cases cs with
    | nil => rfl
    | cons c cs =>
      by_cases hc : c = '%'
      · subst hc
        simp [blankComments_comment, Text.afterLead?, hcomment, hblank]
      · by_cases hq : c = '"'
        · subst hq
          simp [blankComments, Text.afterLead?, hquote]
        · rw [blankComments_cons hc hq, Text.afterLead?, Text.afterLead?]
          by_cases hd : d = c
          · rw [if_pos hd, if_pos hd, ih hds]
          · rw [if_neg hd, if_neg hd]
            rfl

theorem longest?_blankComments {α : Type} {spelling : α → String} {table : List α}
    (h : table.all (fun entry => isSolid (spelling entry)) = true) (cs : List Char) :
    longest? spelling table (blankComments .text cs) =
      (longest? spelling table cs).map fun found => (found.1, blankComments .text found.2) := by
  induction table with
  | nil => rfl
  | cons entry table ih =>
    rw [List.all_cons, Bool.and_eq_true] at h
    have hlead := afterLead?_blankComments h.1 cs
    have hrest := ih h.2
    simp only [longest?] at hrest
    simp only [longest?, List.findSome?_cons, hlead]
    cases Text.afterLead? (spelling entry).toList cs with
    | none => exact hrest
    | some rest => rfl

/-- What a scan finds, with the comments behind it blanked. -/
def withBlanks (found : Lexeme × List Char × List Char) : Lexeme × List Char × List Char :=
  (found.1, found.2.1, blankComments .text found.2.2)

theorem word?_blankComments (cs : List Char) :
    word? (blankComments .text cs) = (word? cs).map withBlanks := by
  obtain ⟨hused, hrest⟩ := takeWhile_blankComments (p := isWordChar) rfl rfl rfl cs
  simp only [word?, hused, hrest]
  split
  · split
    · rfl
    · split <;> rfl
  · split <;> rfl

theorem number?_blankComments (cs : List Char) :
    number? (blankComments .text cs) = (number? cs).map withBlanks := by
  obtain ⟨hused, hrest⟩ := takeWhile_blankComments (p := Char.isDigit) rfl rfl rfl cs
  simp only [number?, hused, hrest]
  split <;> rfl

theorem keyword?_blankComments (cs : List Char) :
    keyword? (blankComments .text cs) = (keyword? cs).map withBlanks := by
  have hsolid : Keyword.all.all (fun word => isSolid word.text) = true := by decide
  simp only [keyword?, longest?_blankComments hsolid]
  cases longest? Keyword.text Keyword.all cs <;> rfl

theorem punct?_blankComments (cs : List Char) :
    punct? (blankComments .text cs) = (punct? cs).map withBlanks := by
  have hsolid : Punct.all.all (fun symbol => isSolid symbol.text) = true := by decide
  simp only [punct?, longest?_blankComments hsolid]
  cases longest? Punct.text Punct.all cs <;> rfl

/-- A unit that is no quoted text is found whether comments behind it are blanked or not. -/
theorem scan_blankComments (hcomment : c ≠ '%') (hquote : c ≠ '"') (cs : List Char) :
    scan c (blankComments .text cs) = withBlanks (scan c cs) := by
  have htext : blankComments .text (c :: cs) = c :: blankComments .text cs :=
    blankComments_cons hcomment hquote
  have hword := word?_blankComments (c :: cs)
  have hnumber := number?_blankComments (c :: cs)
  have hkeyword := keyword?_blankComments (c :: cs)
  have hpunct := punct?_blankComments (c :: cs)
  rw [htext] at hword hnumber hkeyword hpunct
  simp only [scan, hword, hnumber, hkeyword, hpunct, quoted?_eq_none hquote]
  cases word? (c :: cs) with
  | some found => rfl
  | none =>
  cases number? (c :: cs) with
  | some found => rfl
  | none =>
  cases keyword? (c :: cs) with
  | some found => rfl
  | none => cases punct? (c :: cs) <;> rfl

end Units

/-- The units of a text do not depend on where it starts. -/
theorem units_lex (p q : Position) (cs : List Char) :
    (lex p cs).map Token.lexeme = (lex q cs).map Token.lexeme := by
  induction p, cs using lex_induction generalizing q with
  | nil p => rfl
  | gap p cs used rest hgap ih =>
    rw [lex_gap p hgap, lex_gap q hgap]
    exact ih _
  | unit p c cs lexeme used rest hgap hscan ih =>
    rw [lex_scan p hgap hscan, lex_scan q hgap hscan, List.map_cons, List.map_cons, ih]

/-- A quote starts a quoted text if that is closed, and is a stray character otherwise. -/
theorem scan_quote (cs : List Char) : scan '"' cs =
    match quotedTail? cs with
    | some (used, rest) => (.quoted (String.ofList ('"' :: used)), '"' :: used, rest)
    | none => (.stray '"', ['"'], cs) := by
  have hword : word? ('"' :: cs) = none := rfl
  have hnumber : number? ('"' :: cs) = none := rfl
  have hkeyword : keyword? ('"' :: cs) = none := rfl
  have hpunct : punct? ('"' :: cs) = none := rfl
  simp only [scan, hword, hnumber, hkeyword, hpunct, quoted?]
  cases quotedTail? cs <;> rfl

/-- A text has the same units with one blank in place of every comment. -/
theorem units_blankComments (p q : Position) (cs : List Char) :
    (lex q (blankComments .text cs)).map Token.lexeme = (lex p cs).map Token.lexeme := by
  induction p, cs using lex_induction generalizing q with
  | nil p => rfl
  | gap p cs used rest hgap ih =>
    obtain ⟨skipped, hblank⟩ := gap?_blankComments hgap
    rw [lex_gap p hgap, lex_gap q hblank]
    exact ih _
  | unit p c cs lexeme used rest hgap hscan ih =>
    obtain ⟨hspace, hcomment⟩ := gap?_eq_none hgap
    by_cases hquote : c = '"'
    · subst hquote
      have hmode : blankComments .text ('"' :: cs) = '"' :: blankComments .quoted cs := rfl
      rw [scan_quote] at hscan
      cases hquoted : quotedTail? cs with
      | none =>
        -- the quote stays open, so that no comment behind it is blanked
        rw [hmode, blankComments_open hquoted]
        exact units_lex q p _
      | some found =>
        obtain ⟨inside, after⟩ := found
        rw [hquoted] at hscan
        cases hscan
        have hscan' : scan '"' (blankComments .quoted cs) =
            (.quoted (String.ofList ('"' :: inside)), '"' :: inside, blankComments .text rest) := by
          rw [blankComments_quoted hquoted, scan_quote, quotedTail?_used_append hquoted]
        rw [hmode, lex_scan q rfl hscan', List.map_cons, ih]
        rw [lex_scan p hgap (by rw [scan_quote, hquoted]), List.map_cons]
    · have hscan' : scan c (blankComments .text cs) = (lexeme, used, blankComments .text rest) := by
        rw [scan_blankComments hcomment hquote, hscan]
        rfl
      have hgap' : gap? (c :: blankComments .text cs) = none := by
        rw [gap?, if_neg (by simp [hspace]), if_neg hcomment]
      rw [blankComments_cons hcomment hquote, lex_scan q hgap' hscan', lex_scan p hgap hscan,
        List.map_cons, List.map_cons, ih]

end Surface

open Surface (Item blankComments)

theorem toOption_parseItems (file : Path) (text : String) : (parseItems file text).toOption =
    (Surface.parse? text).bind
      fun statements => (Surface.lowerProgram file statements).toOption := by
  simp only [parseItems]
  cases Surface.parse? text with
  | none => simp only [Except.toOption, Option.bind_none]
  | some statements =>
    simp only [Option.bind_some]
    cases Surface.lowerProgram file statements <;> rfl

theorem map_toOption {ε α β : Type} (f : α → β) (x : Except ε α) :
    x.toOption.map f = (x.map f).toOption := by
  cases x <;> rfl

/-- A text is accepted with one blank in place of every comment if and only if it is accepted with
them, and has the same items then, up to locations. -/
theorem parseItems_blankComments (file : Path) (text : String) :
    (parseItems file (String.ofList (blankComments .text text.toList))).toOption.map
    (List.map Item.placeless) =
      (parseItems file text).toOption.map (List.map Item.placeless) := by
  have hunits := Surface.units_blankComments .start .start text.toList
  have hagree : Option.Rel (List.Forall₂ (Surface.StatementsAgree file)) (Surface.parse? text)
      (Surface.parse? (String.ofList (blankComments .text text.toList))) := by
    rw [Surface.parse?, Surface.parse?, String.toList_ofList]
    exact Surface.ofTokens?_agree (Surface.lex_finished _ _) (Surface.lex_finished _ _) hunits
  -- refusals are compared as such: the places that they name are not the same
  rw [toOption_parseItems, toOption_parseItems]
  generalize Surface.parse? text = x, Surface.parse? (String.ofList _) = y at hagree ⊢
  cases hagree with
  | none => rfl
  | some h =>
    rw [Option.bind_some, Option.bind_some, map_toOption, map_toOption,
      Surface.lowerProgram_agree h]

end AspAtlas
