import AspAtlas.Proofs.Surface.Lexing
/-!
Tokens of a piece of text in several surroundings. What follows the piece changes none of its tokens
if it starts with a character that no token goes on with, and neither closes nor opens anything.
-/
namespace AspAtlas.Surface

/-- No symbol reaches from a text into what follows. -/
def Closed (cs post : List Char) : Prop :=
  ∀ symbol : Punct, Text.afterLead? symbol.text.toList (cs ++ post) =
    (Text.afterLead? symbol.text.toList cs).map (· ++ post)

/-- A text that starts with a character of no token but the dot, and holds
neither quotes nor comments. -/
structure Separate (post : List Char) : Prop where
  closed : ∀ c cs, c :: cs ≠ ['.'] → Closed (c :: cs) post
  notWord : ∀ e ∈ post.head?, isWordChar e = false
  notDigit : ∀ e ∈ post.head?, e.isDigit = false
  notKeyword : ∀ e ∈ post.head?, ∀ word : Keyword, e ∉ word.text.toList
  notQuote : '"' ∉ post
  notComment : '%' ∉ post

variable {c : Char} {cs used rest post : List Char} {lexeme : Lexeme} {p q : Position}

/-- What a unit is cut off from may be longer. -/
def extend (post : List Char) (found : Lexeme × List Char × List Char) :
    Lexeme × List Char × List Char :=
  (found.1, found.2.1, found.2.2 ++ post)

theorem takeWhile_append_of_head {accept : Char → Bool} (cs : List Char)
    (h : ∀ e ∈ post.head?, accept e = false) :
    (cs ++ post).takeWhile accept = cs.takeWhile accept ∧
      (cs ++ post).dropWhile accept = cs.dropWhile accept ++ post := by
  induction cs with
  | nil =>
    cases post with
    | nil => exact ⟨rfl, rfl⟩
    | cons e post => simp [h e rfl]
  | cons c cs ih => cases hc : accept c <;> simp [hc, ih]

theorem word?_append (h : Separate post) : word? (cs ++ post) = (word? cs).map (extend post) := by
  obtain ⟨htake, hdrop⟩ := takeWhile_append_of_head cs h.notWord
  simp only [word?, htake, hdrop]
  split
  · split
    · rfl
    · split <;> rfl
  · split <;> rfl

theorem number?_append (h : Separate post) :
    number? (cs ++ post) = (number? cs).map (extend post) := by
  obtain ⟨htake, hdrop⟩ := takeWhile_append_of_head cs h.notDigit
  simp only [number?, htake, hdrop]
  split <;> rfl

theorem quotedTail?_eq_none (h : '"' ∉ cs) : quotedTail? cs = none := by
  fun_induction quotedTail? cs with
  | case1 => rfl
  | case2 c rest ih => simp [ih (by simp_all)]
  | case3 rest => simp at h
  | case4 c rest _ _ ih => simp [ih (by simp_all)]

theorem quotedTail?_append (h : '"' ∉ post) :
    quotedTail? (cs ++ post) = (quotedTail? cs).map fun found => (found.1, found.2 ++ post) := by
  fun_induction quotedTail? cs with
  | case1 => simp [quotedTail?_eq_none h]
  | case2 c rest ih => cases hrest : quotedTail? rest <;> simp_all [quotedTail?]
  | case3 rest => simp [quotedTail?]
  | case4 c rest hescape hquote ih =>
    by_cases hlone : c = '\\' ∧ rest = []
    · -- a backslash at the end takes a character of what follows with it
      obtain ⟨rfl, rfl⟩ := hlone
      cases post with
      | nil => simp [quotedTail?]
      | cons e post =>
        have hnone : quotedTail? post = none := quotedTail?_eq_none (by simp_all)
        simp [quotedTail?, hnone]
    · have hstep : quotedTail? (c :: rest ++ post) =
          (quotedTail? (rest ++ post)).map fun found => (c :: found.1, found.2) := by
        rw [List.cons_append, quotedTail?]
        · intro d more hc hmore
          subst hc
          cases rest with
          | nil => exact hlone ⟨rfl, rfl⟩
          | cons e rest => exact hescape e rest rfl rfl
        · exact hquote
      rw [hstep, ih]
      cases quotedTail? rest <;> rfl

theorem quoted?_append (h : '"' ∉ post) (hcs : cs ≠ []) :
    quoted? (cs ++ post) = (quoted? cs).map (extend post) := by
  cases cs with
  | nil => exact absurd rfl hcs
  | cons c cs =>
    by_cases hquote : c = '"'
    · subst hquote
      simp only [List.cons_append, quoted?, quotedTail?_append h]
      cases quotedTail? cs <;> rfl
    · have hnone (ds : List Char) : quoted? (c :: ds) = none := by
        unfold quoted?
        split
        · simp_all
        · rfl
      rw [List.cons_append, hnone, hnone]
      rfl

theorem afterLead?_append {lead : List Char} (cs : List Char) (h : ∀ e ∈ post.head?, e ∉ lead) :
    Text.afterLead? lead (cs ++ post) = (Text.afterLead? lead cs).map (· ++ post) := by
  induction lead generalizing cs with
  | nil => simp [Text.afterLead?]
  | cons d lead ih =>
    cases cs with
    | nil =>
      cases post with
      | nil => rfl
      | cons e post =>
        have hne : d ≠ e := by
          rintro rfl
          exact h d rfl (List.mem_cons_self)
        simp [Text.afterLead?, hne]
    | cons c cs =>
      have htail : ∀ e ∈ post.head?, e ∉ lead :=
        fun e he hmem => h e he (List.mem_cons_of_mem d hmem)
      by_cases hd : d = c <;> simp [Text.afterLead?, hd, ih cs htail]

theorem longest?_append {α : Type} (spelling : α → String) (table : List α)
    (h : ∀ entry ∈ table, Text.afterLead? (spelling entry).toList (cs ++ post) =
      (Text.afterLead? (spelling entry).toList cs).map (· ++ post)) :
    longest? spelling table (cs ++ post) =
      (longest? spelling table cs).map fun found => (found.1, found.2 ++ post) := by
  unfold longest?
  induction table with
  | nil => rfl
  | cons entry table ih =>
    have hentry := h entry List.mem_cons_self
    have hmore := ih fun other hother => h other (List.mem_cons_of_mem entry hother)
    rw [List.findSome?_cons, List.findSome?_cons, hentry]
    cases Text.afterLead? (spelling entry).toList cs with
    | none => exact hmore
    | some rest => rfl

theorem keyword?_append (h : Separate post) :
    keyword? (cs ++ post) = (keyword? cs).map (extend post) := by
  have hlongest := longest?_append Keyword.text Keyword.all fun word _ =>
    afterLead?_append cs fun e he => h.notKeyword e he word
  rw [keyword?, hlongest, keyword?]
  cases longest? Keyword.text Keyword.all cs <;> rfl

theorem punct?_append (h : Closed cs post) :
    punct? (cs ++ post) = (punct? cs).map (extend post) := by
  have hlongest := longest?_append Punct.text Punct.all fun symbol _ => h symbol
  rw [punct?, hlongest, punct?]
  cases longest? Punct.text Punct.all cs <;> rfl

/-- A unit is the same whatever separate text follows, unless a symbol reaches into it. -/
theorem scan_append (h : Separate post) (hdot : c :: cs ≠ ['.']) :
    scan c (cs ++ post) = extend post (scan c cs) := by
  simp only [scan, ← List.cons_append, word?_append h, number?_append h,
    quoted?_append h.notQuote (List.cons_ne_nil c cs), keyword?_append h,
      punct?_append (h.closed c cs hdot)]
  cases word? (c :: cs) with
  | some found => rfl
  | none =>
  cases number? (c :: cs) with
  | some found => rfl
  | none =>
  cases quoted? (c :: cs) with
  | some found => rfl
  | none =>
  cases keyword? (c :: cs) with
  | some found => rfl
  | none => cases punct? (c :: cs) <;> rfl

theorem blockComment?_eq_none (h : '%' ∉ cs) : blockComment? cs = none := by
  fun_induction blockComment? cs with
  | case1 => rfl
  | case2 rest => simp at h
  | case3 c rest _ ih => simp [ih (by simp_all)]

theorem blockComment?_append (h : '%' ∉ post) :
    blockComment? (cs ++ post) = (blockComment? cs).map
      fun found => (found.1, found.2 ++ post) := by
  fun_induction blockComment? cs with
  | case1 => simp [blockComment?_eq_none h]
  | case2 rest => simp [blockComment?]
  | case3 c rest hopen ih =>
    have hstep : blockComment? (c :: rest ++ post) =
        (blockComment? (rest ++ post)).map fun found => (c :: found.1, found.2) := by
      rw [List.cons_append, blockComment?]
      intro more hc hmore
      cases rest with
      | nil =>
        rw [List.nil_append] at hmore
        exact h (by simp [hmore])
      | cons d rest =>
        simp only [List.cons_append, List.cons.injEq] at hmore
        exact hopen rest hc (by rw [hmore.1])
    rw [hstep, ih]
    cases blockComment? rest <;> rfl

/-- Whether a character is in the line of the one before. -/
def inLine (c : Char) : Bool := c != '\n' && c != '\r'

/-- A comment that no block ends takes the rest of its line. -/
theorem comment_eq_line (h : ∀ inside, cs = '*' :: inside → blockComment? inside = none) :
    comment cs = (cs.takeWhile inLine, cs.dropWhile inLine) := by
  simp only [comment]
  split
  · rename_i inside
    rw [h inside rfl]
    rfl
  · rfl

/-- A comment ends in front of what follows, or takes the rest of the line there with it. -/
theorem comment_append (cs : List Char) :
    (∀ post, '%' ∉ post → comment (cs ++ post) = ((comment cs).1, (comment cs).2 ++ post)) ∨
      ∀ post, '%' ∉ post → (comment (cs ++ post)).2 = post.dropWhile inLine := by
  by_cases hblock : ∃ inside found, cs = '*' :: inside ∧ blockComment? inside = some found
  · obtain ⟨inside, found, rfl, hfound⟩ := hblock
    refine .inl fun post hpost => ?_
    simp [comment, blockComment?_append hpost, hfound]
  · have hline (post : List Char) (hpost : '%' ∉ post) :
        comment (cs ++ post) = ((cs ++ post).takeWhile inLine, (cs ++ post).dropWhile inLine) := by
      refine comment_eq_line fun inside hinside => ?_
      cases cs with
      | nil =>
        rw [List.nil_append] at hinside
        exact blockComment?_eq_none (by simp_all)
      | cons c cs =>
        simp only [List.cons_append, List.cons.injEq] at hinside
        obtain ⟨rfl, rfl⟩ := hinside
        rw [blockComment?_append hpost, Option.map_eq_none_iff, Option.eq_none_iff_forall_ne_some]
        exact fun found hfound => hblock ⟨cs, found, rfl, hfound⟩
    have hown : comment cs = (cs.takeWhile inLine, cs.dropWhile inLine) := by
      simpa using hline [] (by simp)
    by_cases hend : cs.dropWhile inLine = []
    · refine .inr fun post hpost => ?_
      rw [hline post hpost, List.dropWhile_append, hend]
      rfl
    · refine .inl fun post hpost => ?_
      have hshort : (cs.takeWhile inLine).length ≠ cs.length := by
        intro he
        have hsplit := congrArg List.length
          (List.takeWhile_append_dropWhile (p := inLine) (l := cs))
        rw [List.length_append, he] at hsplit
        exact hend (List.length_eq_zero_iff.mp (by omega))
      rw [hline post hpost, hown, List.dropWhile_append, List.takeWhile_append, if_neg hshort]
      simp [hend]

/-- A gap ends in front of what follows, or takes the rest of the line there with it. -/
theorem gap?_append (h : gap? (c :: cs) = some (used, rest)) :
    (∀ post, '%' ∉ post → gap? (c :: cs ++ post) = some (used, rest ++ post)) ∨
      ∀ post, '%' ∉ post → ∃ taken, gap? (c :: cs ++ post) =
        some (taken, post.dropWhile inLine) := by
  simp only [gap?] at h
  split at h
  · rename_i hspace
    cases h
    exact .inl fun post _ => by simp [gap?, hspace]
  · rename_i hspace
    split at h
    · rename_i hc
      cases h
      subst hc
      rcases comment_append cs with hcomment | hcomment
      · exact .inl fun post hpost => by simp [gap?, hspace, hcomment post hpost]
      · refine .inr fun post hpost => ⟨'%' :: (comment (cs ++ post)).1, ?_⟩
        rw [List.cons_append, gap?, if_neg hspace, if_pos rfl, ← hcomment post hpost]
    · cases h

theorem gap?_eq_none_append (h : gap? (c :: cs) = none) (post : List Char) :
    gap? (c :: (cs ++ post)) = none := by
  simp only [gap?] at h ⊢
  split at h
  · cases h
  · split at h
    · cases h
    · simp_all

/-- Symbols but two dots end in front of a dot. -/
theorem closed_dot (h : c :: cs ≠ ['.']) : Closed (c :: cs) ['.'] := by
  intro symbol
  by_cases hsymbol : symbol = .dots
  · subst hsymbol
    rw [show Punct.dots.text.toList = ['.', '.'] by decide]
    by_cases hc : '.' = c
    · subst hc
      cases cs with
      | nil => exact absurd rfl h
      | cons d cs => by_cases hd : '.' = d <;> simp [Text.afterLead?, hd]
    · simp [Text.afterLead?, hc]
  · have hdot : '.' ∉ symbol.text.toList.tail := by
      cases symbol <;> first | exact absurd rfl hsymbol | decide
    obtain ⟨d, lead, htext⟩ := List.exists_cons_of_ne_nil symbol.toList_text_ne_nil
    rw [htext, List.tail_cons] at hdot
    have happend : Text.afterLead? lead (cs ++ ['.']) =
        (Text.afterLead? lead cs).map (· ++ ['.']) :=
      afterLead?_append cs (by simpa using hdot)
    by_cases hd : d = c <;> simp [htext, Text.afterLead?, hd, happend]

theorem separate_dot : Separate ['.'] where
  closed _ _ h := closed_dot h
  notWord := by simp [isWordChar]
  notDigit := by simp
  notKeyword := by
    intro e he word
    cases he
    cases word <;> decide
  notQuote := by decide
  notComment := by decide

theorem closed_blank : Closed cs (' ' :: post) := by
  intro symbol
  refine afterLead?_append cs fun e he => ?_
  cases he
  cases symbol <;> decide

/-- What stands between blanks: after a blank anything that holds neither quotes nor comments. -/
theorem separate_blank (hquote : '"' ∉ post) (hcomment : '%' ∉ post) : Separate (' ' :: post) where
  closed _ _ _ := closed_blank
  notWord := by simp [isWordChar]
  notDigit := by simp
  notKeyword := by
    intro e he word
    cases he
    cases word <;> decide
  notQuote := by simp [hquote]
  notComment := by simp [hcomment]

theorem closed_nil : Closed cs [] := by
  intro symbol
  cases h : Text.afterLead? symbol.text.toList cs <;> simp [h]

theorem separate_nil : Separate [] where
  closed _ _ _ := closed_nil
  notWord := by simp
  notDigit := by simp
  notKeyword := by simp
  notQuote := by simp
  notComment := by simp

theorem advanceBy_ne (hcs : cs ≠ []) : advanceBy p cs ≠ p :=
  fun he => (lt_advanceBy p hcs).ne he.symm

/-- A piece of text in front of a dot that is a token of its own has the same tokens in front of any
separate text. -/
theorem lex_in_context {post : List Char} (hpost : Separate post) (p : Position) (cs : List Char) :
    ∀ xs t final, lex p (cs ++ ['.']) = xs ++ [t, final] → t.begin = advanceBy p cs →
      ∀ q, ∃ ys, lex q (cs ++ post) = ys ++ lex (advanceBy q cs) post ∧
        ys.map Token.lexeme = xs.map Token.lexeme := by
  induction p, cs using lex_induction with
  | nil p =>
    intro xs t final hlex _ q
    have hlength := congrArg List.length hlex
    have htwo : (lex p ['.']).length = 2 := rfl
    simp only [List.nil_append, htwo, List.length_append, List.length_cons,
      List.length_nil] at hlength
    obtain rfl : xs = [] := List.length_eq_zero_iff.mp (by omega)
    exact ⟨[], rfl, rfl⟩
  | gap p cs used rest hgap ih =>
    intro xs t final hlex hbegin q
    obtain ⟨hsplit, -⟩ := gap?_split hgap
    cases cs with
    | nil => cases hgap
    | cons c cs =>
      rcases gap?_append hgap with hsame | htaken
      · rw [lex_gap p (hsame ['.'] separate_dot.notComment)] at hlex
        rw [hsplit, advanceBy_append] at hbegin
        obtain ⟨ys, hys, hunits⟩ := ih xs t final hlex hbegin (advanceBy q used)
        refine ⟨ys, ?_, hunits⟩
        rw [lex_gap q (hsame post hpost.notComment), hys, hsplit, advanceBy_append]
      · -- a comment that takes the dot leaves nothing to be a token
        obtain ⟨taken, htaken⟩ := htaken ['.'] separate_dot.notComment
        rw [lex_gap p htaken] at hlex
        have hlength := congrArg List.length hlex
        simp [inLine] at hlength
  | unit p c cs lexeme used rest hgap hscan ih =>
    intro xs t final hlex hbegin q
    have hsplit := scan_split hscan
    by_cases hdot : c :: cs = ['.']
    · -- two dots are one token, which begins too early
      cases hdot
      have hdots : lex p ['.', '.'] = [⟨.punct .dots, p, advanceBy p ['.', '.']⟩,
          ⟨.finish, advanceBy p ['.', '.'], advanceBy p ['.', '.']⟩] := rfl
      have hxs := hlex.symm.trans hdots
      cases xs with
      | nil =>
        simp only [List.nil_append, List.cons.injEq] at hxs
        rw [hxs.1] at hbegin
        exact absurd hbegin.symm (advanceBy_ne (by simp))
      | cons x xs =>
        have hlength := congrArg List.length hxs
        simp at hlength
    · have hfound := scan_append separate_dot hdot
      rw [hscan] at hfound
      have hsame := scan_append hpost hdot
      rw [hscan] at hsame
      rw [List.cons_append, lex_scan p (gap?_eq_none_append hgap ['.']) hfound] at hlex
      cases xs with
      | nil =>
        simp only [List.nil_append, List.cons.injEq] at hlex
        rw [← hlex.1] at hbegin
        exact absurd hbegin.symm (advanceBy_ne (List.cons_ne_nil c cs))
      | cons x xs =>
        simp only [List.cons_append, List.cons.injEq] at hlex
        rw [hsplit, advanceBy_append] at hbegin
        obtain ⟨ys, hys, hunits⟩ := ih xs t final hlex.2 hbegin (advanceBy q used)
        refine ⟨⟨lexeme, q, advanceBy q used⟩ :: ys, ?_, ?_⟩
        · rw [List.cons_append, lex_scan q (gap?_eq_none_append hgap post) hsame, hys,
            ← List.cons_append, hsplit, advanceBy_append]
        · rw [List.map_cons, List.map_cons, hunits, ← hlex.1]

end AspAtlas.Surface
