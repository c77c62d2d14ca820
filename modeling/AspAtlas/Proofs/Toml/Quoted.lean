import AspAtlas.Proofs.Json.Reading
import AspAtlas.Toml.Printer
import AspAtlas.Toml.Text
/-!
Reading back quoted texts. Whatever form the writer chooses for a text, the reader takes it up to
its closing quotes and gives the text.
-/
namespace AspAtlas.Toml

variable {quote c : Char} {escapes overLines : Bool} {n free : Nat} {text body rest : List Char}

-- The walks of the reader and the writer are opened in the proofs below.
attribute [local simp] quotedTail literalTail blockTail escapeText

/-- How a character is written between quotes: as it is, or by an escape. -/
inductive Spells (quote : Char) (escapes : Bool) : Char → List Char → Prop
  | plain {c : Char} (hplain : isPlain c = true) (hquote : c ≠ quote)
      (hslash : escapes = true → c ≠ '\\') : Spells quote escapes c [c]
  | escape {c e : Char} {more : List Char} (hescapes : escapes = true) (hspace : isSpace e = false)
      (hfeed : e ≠ '\n' ∧ e ≠ '\r')
      (hread : ∀ rest, escape? (e :: (more ++ rest)) = some (c, rest)) :
      Spells quote escapes c ('\\' :: e :: more)

theorem upperHex_value {k : Nat} (h : k < 16) : Json.hexValue? (upperHex k) = some k := by
  revert k
  decide

theorem toNat_lt_of_isControl (h : isControl c = true) : c.toNat < 256 := by
  simp only [isControl, Bool.or_eq_true, Bool.and_eq_true, decide_eq_true_eq, beq_iff_eq] at h
  omega

theorem isPlain_of_not_isControl (h : isControl c = false) (hfeed : c ≠ '\n') :
    isPlain c = true := by
  by_cases htab : c = '\t'
  · subst htab
    rfl
  · simp only [isControl, Bool.or_eq_false_iff, Bool.and_eq_false_iff, decide_eq_false_iff_not,
      bne_eq_false_iff_eq, beq_eq_false_iff_ne, htab, hfeed, or_false] at h
    simp only [isPlain, Bool.or_eq_true, Bool.and_eq_true, beq_iff_eq,
      decide_eq_true_eq, bne_iff_ne]
    omega

/-- A character is read back from its number in four digits. -/
theorem charOfHex?_control (h : c.toNat < 256) :
    charOfHex? ['0', '0', upperHex (c.toNat / 16), upperHex (c.toNat % 16)] = some c := by
  have hhigh : Json.hexValue? (upperHex (c.toNat / 16)) = some (c.toNat / 16) :=
    upperHex_value (by omega)
  have hlow : Json.hexValue? (upperHex (c.toNat % 16)) = some (c.toNat % 16) :=
    upperHex_value (by omega)
  have hzero : Json.hexValue? '0' = some 0 := by decide
  have hcode : (((0 * 16 + 0) * 16 + 0) * 16 + c.toNat / 16) * 16 + c.toNat % 16 =
      c.toNat := by omega
  have hvalid : c.toNat.isValidChar := c.valid
  simp only [charOfHex?, List.mapM_cons, List.mapM_nil, hzero, hhigh, hlow, Option.bind_eq_bind,
    Option.bind_some, Option.pure_def, List.foldl_cons, List.foldl_nil, hcode, hvalid, if_true,
      Char.ofNat_toNat]

/-- The writer spells a character between double quotes; other rules hold for the quote itself, and
for a line feed in a text over several lines. -/
theorem spells_escapeChar (hquote : c ≠ '"') (hfeed : overLines = true → c ≠ '\n') :
    Spells '"' true c (escapeChar overLines c) := by
  have hnumber {k : Nat} (h : c.toNat = k) : c = Char.ofNat k := by rw [← h, Char.ofNat_toNat]
  simp only [escapeChar]
  split_ifs with hslash htab hline hlines hreturn hback hform hcontrol
  · subst hslash
    exact .escape rfl rfl (by decide) fun _ => rfl
  · subst htab
    exact .escape rfl rfl (by decide) fun _ => rfl
  · exact absurd hline (hfeed hlines)
  · subst hline
    exact .escape rfl rfl (by decide) fun _ => rfl
  · subst hreturn
    exact .escape rfl rfl (by decide) fun _ => rfl
  · rw [hnumber hback]
    exact .escape rfl rfl (by decide) fun _ => rfl
  · rw [hnumber hform]
    exact .escape rfl rfl (by decide) fun _ => rfl
  · refine .escape rfl rfl (by decide) fun rest => ?_
    have hlength : ¬ ('0' :: '0' :: upperHex (c.toNat / 16) :: upperHex (c.toNat % 16) ::
        rest).length < 4 := by
      simp only [List.length_cons]
      omega
    simp only [List.cons_append, List.nil_append, escape?, hlength, if_false, List.take_succ_cons,
      List.take_zero, charOfHex?_control (toNat_lt_of_isControl hcontrol), Option.map_some,
      List.drop_succ_cons, List.drop_zero]
  · exact .plain (isPlain_of_not_isControl (Bool.eq_false_iff.mpr hcontrol) hline) hquote
      fun _ => hslash

theorem spells_escapedQuote : Spells '"' true '"' ['\\', '"'] :=
  .escape rfl rfl (by decide) fun _ => rfl

section OneLine

theorem escapeText_line (c : Char) (text : List Char) : ∃ u, Spells '"' true c u ∧
    escapeText false 0 0 (c :: text) = u ++ escapeText false 0 0 text := by
  by_cases hquote : c = '"'
  · subst hquote
    exact ⟨_, spells_escapedQuote, rfl⟩
  · have hspells : Spells '"' true c (escapeChar false c) := spells_escapeChar hquote (by simp)
    exact ⟨_, hspells, by simp⟩

theorem quotedTail_spells {done u : List Char} (h : Spells '"' true c u) :
    quotedTail (n + 1) done (u ++ rest) = quotedTail n (c :: done) rest := by
  cases h with
  | plain hplain hquote hslash => simp [hslash, hplain]
  | escape _ _ _ hread => simp [hread]

/-- A text on one line is read up to its closing double quote. -/
theorem quotedTail_escapeText {done : List Char} (hn : (escapeText false 0 0 text).length < n) :
    quotedTail n done (escapeText false 0 0 text ++ '"' :: rest) =
      some (String.ofList (done.reverse ++ text), rest) := by
  induction text generalizing n done with
  | nil =>
    obtain ⟨k, rfl⟩ : ∃ k, n = k + 1 := ⟨n - 1, by omega⟩
    simp
  | cons c text ih =>
    obtain ⟨u, hu, htext⟩ := escapeText_line c text
    have hlength : 0 < u.length := by cases hu <;> simp
    rw [htext, List.length_append] at hn
    obtain ⟨k, rfl⟩ : ∃ k, n = k + 1 := ⟨n - 1, by omega⟩
    rw [htext, List.append_assoc, quotedTail_spells hu, ih (by omega), List.reverse_cons,
      List.append_assoc, List.singleton_append]

/-- A text on one line is read up to its closing single quote. -/
theorem literalTail_append {done : List Char} (h : ∀ c ∈ text, isPlain c = true ∧ c ≠ '\'') :
    literalTail done (text ++ '\'' :: rest) =
      some (String.ofList (done.reverse ++ text), rest) := by
  induction text generalizing done with
  | nil => simp
  | cons c text ih =>
    obtain ⟨⟨hplain, hquote⟩, htext⟩ := List.forall_mem_cons.mp h
    rw [List.cons_append, literalTail, if_pos hplain, ih htext, List.reverse_cons,
      List.append_assoc, List.singleton_append]
    exact hquote

end OneLine

section Block

/-- A body of a text between triple quotes. Quotes are left as they are, at most `free` of them at
the front and at most two in a row behind other characters. -/
inductive Body (quote : Char) (escapes : Bool) : Nat → List Char → List Char → Prop
  | nil {free : Nat} : Body quote escapes free [] []
  | quote {free : Nat} {text body : List Char} (h : Body quote escapes free text body) :
      Body quote escapes (free + 1) (quote :: text) (quote :: body)
  | feed {free : Nat} {text body : List Char} (h : Body quote escapes 2 text body) :
      Body quote escapes free ('\n' :: text) ('\n' :: body)
  | char {free : Nat} {c : Char} {u text body : List Char} (hc : Spells quote escapes c u)
      (h : Body quote escapes 2 text body) : Body quote escapes free (c :: text) (u ++ body)

theorem body_escapeText (free : Nat) (text : List Char) :
    Body '"' true free text (escapeText true 2 free text) := by
  induction text generalizing free with
  | nil => exact .nil
  | cons c text ih =>
    by_cases hquote : c = '"'
    · subst hquote
      cases free with
      | zero => exact .char spells_escapedQuote (ih 2)
      | succ free => exact .quote (ih free)
    · rw [escapeText]
      · by_cases hfeed : c = '\n'
        · subst hfeed
          exact .feed (ih 2)
        · exact .char (spells_escapeChar hquote fun _ => hfeed) (ih 2)
      · exact hquote

/-- One step of the walk that finds the longest run of a character: the
run so far, and the longest. -/
def runStep (quote : Char) (p : Nat × Nat) (c : Char) : Nat × Nat :=
  (if c = quote then p.1 + 1 else 0, max p.2 (if c = quote then p.1 + 1 else 0))

theorem longestRun_eq (quote : Char) (cs : List Char) :
    longestRun quote cs = (cs.foldl (runStep quote) (0, 0)).2 := rfl

theorem longest_le_foldl (quote : Char) (p : Nat × Nat) (cs : List Char) :
    p.2 ≤ (cs.foldl (runStep quote) p).2 := by
  induction cs generalizing p with
  | nil => exact Nat.le_refl _
  | cons c cs ih => exact Nat.le_trans (Nat.le_max_left _ _) (ih (runStep quote p c))

theorem not_mem_of_longestRun (h : longestRun quote text = 0) : quote ∉ text := by
  rw [longestRun_eq] at h
  generalize (0, 0) = p at h
  induction text generalizing p with
  | nil => exact List.not_mem_nil
  | cons c text ih =>
    rw [List.foldl_cons] at h
    have hlongest := longest_le_foldl quote (runStep quote p c) text
    rw [h] at hlongest
    rintro (_ | ⟨_, hmem⟩)
    · simp [runStep] at hlongest
    · exact ih _ h hmem

/-- A text without long runs of the quote and without control characters is its own body. -/
theorem body_self {p : Nat × Nat} (htext : ∀ c ∈ text, isControl c = false) (hrun : p.1 ≤ 2)
    (hfold : (text.foldl (runStep quote) p).2 ≤ 2) : Body quote false (2 - p.1) text text := by
  induction text generalizing p with
  | nil => exact .nil
  | cons c text ih =>
    obtain ⟨hc, htext⟩ := List.forall_mem_cons.mp htext
    rw [List.foldl_cons] at hfold
    have hlongest := longest_le_foldl quote (runStep quote p c) text
    by_cases hquote : c = quote
    · subst hquote
      simp only [runStep, if_true] at hfold hlongest
      have hfree : 2 - p.1 = 2 - (p.1 + 1) + 1 := by omega
      rw [hfree]
      exact .quote (ih htext (by omega) hfold)
    · simp only [runStep, if_neg hquote] at hfold
      have hbody := ih htext (Nat.zero_le _) hfold
      by_cases hfeed : c = '\n'
      · subst hfeed
        exact .feed hbody
      · exact .char (.plain (isPlain_of_not_isControl hc hfeed) hquote (by simp)) hbody

theorem quotesAt_eq (quote : Char) (cs : List Char) :
    quotesAt quote cs = min 5 (cs.takeWhile (· == quote)).length := by
  rw [quotesAt, ← List.take_takeWhile, List.length_take]

theorem quotesAt_of_ne (cs : List Char) (h : c ≠ quote) : quotesAt quote (c :: cs) = 0 := by
  simp [quotesAt, h]

/-- A body has few quotes at its front, unless it consists of nothing else. -/
theorem Body.quotes (h : Body quote escapes free text body) (hslash : quote ≠ '\\')
    (hfeed : quote ≠ '\n') :
    (∃ k ≤ free, text = List.replicate k quote ∧ body = List.replicate k quote) ∨
      ∀ rest, ((body ++ rest).takeWhile (· == quote)).length ≤ free := by
  induction h with
  | nil => exact .inl ⟨0, Nat.zero_le _, rfl, rfl⟩
  | quote _ ih =>
    rcases ih with ⟨k, hk, rfl, rfl⟩ | hfew
    · exact .inl ⟨k + 1, by omega, rfl, rfl⟩
    · refine .inr fun rest => ?_
      rw [List.cons_append, List.takeWhile_cons_of_pos (by simp), List.length_cons]
      exact Nat.succ_le_succ (hfew rest)
  | feed => exact .inr fun rest => by simp [hfeed.symm]
  | char hc => exact .inr fun rest => by cases hc <;> simp_all [Ne.symm]

/-- Three quotes end a text, with the quotes of the text right before them. -/
theorem blockTail_close {done : List Char} {k : Nat} (hk : k ≤ 2)
    (hrest : rest.head? ≠ some quote) :
    blockTail quote escapes (n + 1) done
      (List.replicate k quote ++ (quote :: quote :: quote :: rest)) =
      some (String.ofList (done.reverse ++ List.replicate k quote), rest) := by
  have hall : List.replicate k quote ++ (quote :: quote :: quote :: rest) =
      List.replicate (k + 3) quote ++ rest := by
    rw [← List.replicate_append_replicate, List.append_assoc]
    rfl
  have hstop : rest.takeWhile (· == quote) = [] := by
    cases rest with
    | nil => rfl
    | cons c rest => exact List.takeWhile_cons_of_neg (by simpa using hrest)
  have hquotes : quotesAt quote (List.replicate (k + 3) quote ++ rest) = k + 3 := by
    rw [quotesAt_eq, List.takeWhile_append_of_pos (by simp), hstop, List.append_nil,
      List.length_replicate]
    omega
  rw [hall, blockTail.eq_def]
  simp [hquotes]

theorem blockTail_quote {done : List Char} (hquote : quote = '"' ∨ quote = '\'')
    (hfew : quotesAt quote (quote :: rest) < 3) :
    blockTail quote escapes (n + 1) done (quote :: rest) =
      blockTail quote escapes n (quote :: done) rest := by
  have hopen : ¬ 3 ≤ quotesAt quote (quote :: rest) := by omega
  rw [blockTail.eq_def]
  rcases hquote with rfl | rfl <;> simp [hopen, afterFeed?, isPlain]

theorem blockTail_feed {done : List Char} (hfeed : quote ≠ '\n') :
    blockTail quote escapes (n + 1) done ('\n' :: rest) =
      blockTail quote escapes n ('\n' :: done) rest := by
  rw [blockTail, quotesAt_of_ne _ hfeed.symm]
  rfl

theorem afterFeed?_of_ne (hfeed : c ≠ '\n') (hreturn : c ≠ '\r') :
    afterFeed? (c :: rest) = none := by
  simp [afterFeed?, hfeed, hreturn]

theorem ne_of_isPlain (h : isPlain c = true) : c ≠ '\n' ∧ c ≠ '\r' := by
  constructor <;>
    · rintro rfl
      cases h

theorem blockTail_spells {done u : List Char} (hslash : quote ≠ '\\')
    (h : Spells quote escapes c u) :
    blockTail quote escapes (n + 1) done (u ++ rest) =
      blockTail quote escapes n (c :: done) rest := by
  cases h with
  | plain hplain hquote hescapes =>
    obtain ⟨hfeed, hreturn⟩ := ne_of_isPlain hplain
    have hslash : ¬ (c = '\\' ∧ escapes = true) := fun h => hescapes h.2 h.1
    rw [List.singleton_append, blockTail.eq_def]
    simp [quotesAt_of_ne _ hquote, afterFeed?_of_ne hfeed hreturn, hslash, hplain]
  | @escape e more hescapes hspace hfeed hread =>
    have hskip (cs : List Char) : skipSpace (e :: cs) = e :: cs := by simp [skipSpace, hspace]
    rw [List.cons_append, List.cons_append, blockTail.eq_def]
    simp [quotesAt_of_ne _ hslash.symm, afterFeed?_of_ne (c := '\\') (by decide) (by decide),
      hescapes, hskip, afterFeed?_of_ne hfeed.1 hfeed.2, hread]

/-- A text between triple quotes is read up to the last three quotes in a row. -/
theorem blockTail_body {done : List Char} (h : Body quote escapes free text body) (hfree : free ≤ 2)
    (hquote : quote = '"' ∨ quote = '\'') (hrest : rest.head? ≠ some quote) (hn : body.length < n) :
    blockTail quote escapes n done (body ++ (quote :: quote :: quote :: rest)) =
      some (String.ofList (done.reverse ++ text), rest) := by
  have hslash : quote ≠ '\\' := by rcases hquote with rfl | rfl <;> decide
  have hfeed : quote ≠ '\n' := by rcases hquote with rfl | rfl <;> decide
  induction h generalizing done n with
  | nil =>
    obtain ⟨m, rfl⟩ : ∃ m, n = m + 1 := ⟨n - 1, by omega⟩
    exact blockTail_close (k := 0) (Nat.zero_le _) hrest
  | @quote free text body h ih =>
    rw [List.length_cons] at hn
    obtain ⟨m, rfl⟩ : ∃ m, n = m + 1 := ⟨n - 1, by omega⟩
    rcases (Body.quote h).quotes hslash hfeed with ⟨k, hk, htext, hbody⟩ | hfew
    · -- what is left are quotes only, which run into the closing ones
      rw [htext, hbody]
      exact blockTail_close (by omega) hrest
    · have hopen := hfew (quote :: quote :: quote :: rest)
      rw [List.cons_append, blockTail_quote hquote, ih (by omega) (by omega)]
      · simp
      · rw [quotesAt_eq, ← List.cons_append]
        omega
  | feed h ih =>
    rw [List.length_cons] at hn
    obtain ⟨m, rfl⟩ : ∃ m, n = m + 1 := ⟨n - 1, by omega⟩
    rw [List.cons_append, blockTail_feed hfeed, ih (Nat.le_refl _) (by omega)]
    simp
  | @char free c u text body hc h ih =>
    have hlength : 0 < u.length := by cases hc <;> simp
    rw [List.length_append] at hn
    obtain ⟨m, rfl⟩ : ∃ m, n = m + 1 := ⟨n - 1, by omega⟩
    rw [List.append_assoc, blockTail_spells hslash hc, ih (Nat.le_refl _) (by omega)]
    simp

theorem Body.afterFeed? (h : Body quote escapes free text body)
    (hquote : quote = '"' ∨ quote = '\'')
    (htext : '\n' ∉ text) : afterFeed? (body ++ quote :: rest) = none := by
  cases h with
  | nil => rcases hquote with rfl | rfl <;> rfl
  | quote => rcases hquote with rfl | rfl <;> rfl
  | feed => simp at htext
  | char hc =>
    cases hc with
    | plain hplain => exact afterFeed?_of_ne (ne_of_isPlain hplain).1 (ne_of_isPlain hplain).2
    | escape => rfl

/-- Behind its opening quotes a text over several lines is read up to its closing ones; a line feed
that the writer has put in front is dropped, and no other. -/
theorem block?_body (h : Body quote escapes 2 text body) (hquote : quote = '"' ∨ quote = '\'')
    (hrest : rest.head? ≠ some quote) :
    block? quote escapes ((if text.contains '\n' then ['\n'] else []) ++
      (body ++ (quote :: quote :: quote :: rest))) = some (String.ofList text, rest) := by
  have htail {n : Nat} (hn : body.length < n) : blockTail quote escapes n []
      (body ++ (quote :: quote :: quote :: rest)) = some (String.ofList text, rest) :=
    blockTail_body h (Nat.le_refl _) hquote hrest hn
  rw [block?]
  split_ifs with hfeed
  · refine htail ?_
    simp only [List.length_append, List.length_cons]
    omega
  · rw [List.contains_iff_mem] at hfeed
    rw [List.nil_append, h.afterFeed? hquote hfeed]
    refine htail ?_
    simp only [List.length_append]
    omega

end Block

section Forms

theorem quoted?_double (h : ∀ more, text ≠ '"' :: '"' :: more) :
    quoted? ('"' :: text) = quotedTail (text.length + 1) [] text := by
  rw [quoted?]
  exact fun more => h more

theorem quoted?_single (h : ∀ more, text ≠ '\'' :: '\'' :: more) :
    quoted? ('\'' :: text) = literalTail [] text := by
  rw [quoted?]
  exact fun more => h more

/-- The form with escapes holds every text. -/
theorem quoted?_escapeText (text : List Char) (hrest : rest.head? ≠ some '"') :
    quoted? ('"' :: (escapeText false 0 0 text ++ ['"']) ++ rest) =
      some (String.ofList text, rest) := by
  rw [List.cons_append, List.append_assoc, List.singleton_append, quoted?_double,
    quotedTail_escapeText]
  · rfl
  · rw [List.length_append]
    omega
  · intro more
    cases text with
    | nil =>
      intro hmore
      rw [escapeText, List.nil_append] at hmore
      obtain ⟨-, rfl⟩ := List.cons.inj hmore
      exact hrest rfl
    | cons c text =>
      obtain ⟨u, hu, htext⟩ := escapeText_line c text
      rw [htext]
      cases hu with
      | plain _ hquote => simp [hquote]
      | escape => simp

theorem quoted?_literal (h : ∀ c ∈ text, isPlain c = true ∧ c ≠ '\'')
    (hrest : rest.head? ≠ some '\'') :
    quoted? ('\'' :: (text ++ ['\'']) ++ rest) = some (String.ofList text, rest) := by
  rw [List.cons_append, List.append_assoc, List.singleton_append, quoted?_single,
    literalTail_append h]
  · rfl
  · intro more
    cases text with
    | nil =>
      intro hmore
      obtain ⟨-, rfl⟩ := List.cons.inj hmore
      exact hrest rfl
    | cons c text => simp [(h c List.mem_cons_self).2]

theorem quoted?_block (h : Body quote escapes 2 text body)
    (hquote : quote = '"' ∧ escapes = true ∨ quote = '\'' ∧ escapes = false)
    (hrest : rest.head? ≠ some quote) :
    quoted? (block quote text body ++ rest) = some (String.ofList text, rest) := by
  have hopen (cs : List Char) :
      quoted? (quote :: quote :: quote :: cs) = block? quote escapes cs := by
    rcases hquote with ⟨rfl, rfl⟩ | ⟨rfl, rfl⟩ <;> rfl
  have hblock : block quote text body ++ rest = quote :: quote :: quote ::
      ((if text.contains '\n' then ['\n'] else []) ++
        (body ++ (quote :: quote :: quote :: rest))) := by
    simp [block]
  rw [hblock, hopen, block?_body h (hquote.imp And.left And.left) hrest]

theorem head?_ne_of_follows {c : Char} (h : Json.Follows rest) (hc : c = '"' ∨ c = '\'') :
    rest.head? ≠ some c := by
  intro hhead
  rcases h c hhead with rfl | rfl | rfl | rfl <;> simp at hc

/-- A written text is read back, in whatever form it is. -/
theorem quoted?_quotedChars (text : List Char) (hrest : Json.Follows rest) :
    quoted? (quotedChars text ++ rest) = some (String.ofList text, rest) := by
  have hdouble : rest.head? ≠ some '"' := head?_ne_of_follows hrest (.inl rfl)
  have hsingle : rest.head? ≠ some '\'' := head?_ne_of_follows hrest (.inr rfl)
  have hplain (h : text.any isControl = false) : ∀ c ∈ text, isControl c = false := by
    simpa using h
  simp only [quotedChars]
  split_ifs with _ hliteral _ hblock
  · exact quoted?_escapeText text hdouble
  · simp only [Bool.and_eq_true, Bool.not_eq_true', beq_iff_eq] at hliteral
    obtain ⟨⟨hcontrol, hruns⟩, hfeed⟩ := hliteral
    refine quoted?_literal (fun c hc => ⟨?_, ?_⟩) hsingle
    · exact isPlain_of_not_isControl (hplain hcontrol c hc) fun h => by simp_all
    · rintro rfl
      exact not_mem_of_longestRun hruns hc
  · exact quoted?_block (body_escapeText 2 text) (.inl ⟨rfl, rfl⟩) hdouble
  · simp only [Bool.and_eq_true, Bool.not_eq_true', decide_eq_true_eq] at hblock
    obtain ⟨hcontrol, hruns⟩ := hblock
    exact quoted?_block (body_self (p := (0, 0)) (hplain hcontrol) (Nat.zero_le _) hruns)
      (.inr ⟨rfl, rfl⟩) hsingle
  · exact quoted?_block (body_escapeText 2 text) (.inl ⟨rfl, rfl⟩) hdouble
  · exact quoted?_escapeText text hdouble

end Forms

end AspAtlas.Toml
