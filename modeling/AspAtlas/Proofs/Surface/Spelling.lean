import AspAtlas.Proofs.Grammar.Words
import AspAtlas.Proofs.Surface.Comments
import Mathlib.Data.List.TakeWhile
/-!
Units and their characters. The characters of a unit are read as that unit again
if what stands behind them starts with no character that it goes on with; so a
text of units is cut where they meet.
-/
namespace AspAtlas.Surface

variable {c e : Char} {cs used rest post : List Char} {l lexeme : Lexeme} {p : Position}

/-- The characters of a unit. -/
def Lexeme.chars : Lexeme → List Char
  | .keyword word => word.text.toList
  | .identifier text | .var text | .number text | .quoted text => text.toList
  | .punct symbol => symbol.text.toList
  | .stray c => [c]
  | .finish => []

section Tables

variable {α : Type}

/-- The characters with which a spelling of a table goes on to a longer one. -/
def nextOf (spelling : α → String) (table : List α) (entry : α) : List Char :=
  table.filterMap fun other =>
    (Text.afterLead? (spelling entry).toList (spelling other).toList).bind List.head?

theorem afterLead?_append_of_stop {lead : List Char} (cs : List Char)
    (h : ∀ e ∈ post.head?, ∀ more, lead ≠ cs ++ e :: more) :
    Text.afterLead? lead (cs ++ post) = (Text.afterLead? lead cs).map (· ++ post) := by
  induction cs generalizing lead with
  | nil =>
    cases lead with
    | nil => rfl
    | cons d lead =>
      cases post with
      | nil => rfl
      | cons e post =>
        have hne : d ≠ e := by
          rintro rfl
          exact h d rfl lead rfl
        simp [Text.afterLead?, hne]
  | cons c cs ih =>
    cases lead with
    | nil => rfl
    | cons d lead =>
      by_cases hd : d = c
      · subst hd
        simp only [List.cons_append, Text.afterLead?, if_true]
        exact ih fun e he more hlead => h e he more (by rw [hlead, List.cons_append])
      · simp [Text.afterLead?, hd]

theorem longest?_spelling {spelling : α → String} {table : List α} {entry : α} (post : List Char)
    (hown : longest? spelling table (spelling entry).toList = some (entry, []))
    (hpost : ∀ e ∈ post.head?, e ∉ nextOf spelling table entry) :
    longest? spelling table ((spelling entry).toList ++ post) = some (entry, post) := by
  rw [longest?_append, hown]
  · rfl
  · intro other hother
    refine afterLead?_append_of_stop _ fun e he more hlead => hpost e he ?_
    refine List.mem_filterMap.mpr ⟨other, hother, ?_⟩
    rw [Text.afterLead?_eq_some_iff.mpr hlead]
    rfl

end Tables

/-- Whether a character behind a unit would belong to it or to a longer one. -/
def Lexeme.goesOn : Lexeme → Char → Bool
  | .keyword word, e => e ∈ nextOf Keyword.text Keyword.all word
  | .identifier _, e | .var _, e => isWordChar e
  | .number _, e => e.isDigit
  | .quoted _, _ => false
  | .punct symbol, e => e ∈ nextOf Punct.text Punct.all symbol
  | .stray _, _ | .finish, _ => true

/-- A text that a unit ends in front of. -/
def Lexeme.StopsAt (l : Lexeme) (post : List Char) : Prop := ∀ e ∈ post.head?, l.goesOn e = false

/-- A unit that is read from its own characters. -/
def Lexeme.Spelled (l : Lexeme) : Prop :=
  ∃ c ds, l.chars = c :: ds ∧ gap? (c :: ds) = none ∧
    ∀ post, l.StopsAt post → scan c (ds ++ post) = (l, c :: ds, post)

theorem word?_used_append (h : word? cs = some (lexeme, used, rest))
    (hpost : ∀ e ∈ post.head?, isWordChar e = false) :
    word? (used ++ post) = some (lexeme, used, post) := by
  have hused : cs.takeWhile isWordChar = used := by
    simp only [word?] at h
    split at h
    · split at h
      · cases h
        rfl
      · split at h <;> cases h
        rfl
    · split at h <;> cases h
      rfl
  have hall : ∀ e ∈ used, isWordChar e = true := by
    intro e he
    rw [← hused] at he
    exact List.mem_takeWhile_imp he
  obtain ⟨htake, hdrop⟩ := takeWhile_append_of_head used hpost
  rw [List.takeWhile_eq_self_iff.mpr hall] at htake
  rw [List.dropWhile_eq_nil_iff.mpr hall, List.nil_append] at hdrop
  simp only [word?, hused] at h
  simp only [word?, htake, hdrop]
  split at h
  · split at h
    · rename_i hlower
      cases h
      simp [hlower]
    · rename_i hlower
      split at h <;> cases h
      rename_i hupper
      simp [hlower, hupper]
  · split at h <;> cases h
    rename_i hlone
    simp [hlone]

theorem number?_used_append (h : number? cs = some (lexeme, used, rest))
    (hpost : ∀ e ∈ post.head?, e.isDigit = false) :
    number? (used ++ post) = some (lexeme, used, post) := by
  simp only [number?] at h
  split at h <;> cases h
  rename_i hne
  have hall : ∀ e ∈ cs.takeWhile Char.isDigit, e.isDigit = true :=
    fun e he => List.mem_takeWhile_imp he
  obtain ⟨htake, hdrop⟩ := takeWhile_append_of_head (cs.takeWhile Char.isDigit) hpost
  rw [List.takeWhile_eq_self_iff.mpr hall] at htake
  rw [List.dropWhile_eq_nil_iff.mpr hall, List.nil_append] at hdrop
  simp [number?, htake, hdrop, hne]

theorem quoted?_used_append (h : quoted? cs = some (lexeme, used, rest)) (post : List Char) :
    quoted? (used ++ post) = some (lexeme, used, post) := by
  unfold quoted? at h
  split at h
  · simp only [Option.map_eq_some_iff, Prod.exists, Prod.mk.injEq] at h
    obtain ⟨inside, after, hinside, rfl, rfl, -⟩ := h
    simp [quoted?, quotedTail?_used_append hinside post]
  · cases h

theorem keyword_spelled (word : Keyword) : (Lexeme.keyword word).Spelled := by
  obtain ⟨ds, hds⟩ := toList_keyword word
  refine ⟨'#', ds, hds, rfl, fun post hpost => ?_⟩
  have hown : longest? Keyword.text Keyword.all word.text.toList = some (word, []) := by
    cases word <;> decide
  have hlongest := longest?_spelling post hown fun e he hmem => by
    simpa [Lexeme.goesOn, hmem] using hpost e he
  rw [hds, List.cons_append] at hlongest
  rw [scan_of_longest_keyword hlongest, hds]

theorem punct_spelled (symbol : Punct) : (Lexeme.punct symbol).Spelled := by
  obtain ⟨d, ds, hds, hd⟩ := toList_punct symbol
  have hgap : gap? (d :: ds) = none := by
    rw [← hds]
    cases symbol <;> rfl
  refine ⟨d, ds, hds, hgap, fun post hpost => ?_⟩
  have hown : longest? Punct.text Punct.all symbol.text.toList = some (symbol, []) := by
    cases symbol <;> decide
  have hlongest := longest?_spelling post hown fun e he hmem => by
    simpa [Lexeme.goesOn, hmem] using hpost e he
  rw [hds, List.cons_append] at hlongest
  rw [scan_of_longest_punct hlongest, hds]

namespace Kind

variable {k : Kind} {name : String}

/-- A unit with a text of its own is spelled if its text is cut off whatever stops it. -/
theorem spelled (hgap : gap? (c :: cs) = none) (h : scan c cs = (k.lexeme name, used, rest))
    (hchars : (k.lexeme name).chars = name.toList)
    (hkept : ∀ post, (k.lexeme name).StopsAt post →
      k.cut (used ++ post) = some (name, used, post)) :
    (k.lexeme name).Spelled := by
  have hname := k.text _ _ _ _ ((k.scan_iff _ _ _ _ _).mp h)
  have hsplit := scan_split h
  obtain ⟨hspace, hcomment⟩ := gap?_eq_none hgap
  cases used with
  | nil => exact absurd rfl (used_of_scan h).1
  | cons d ds =>
    rw [List.cons_append, List.cons.injEq] at hsplit
    obtain ⟨rfl, -⟩ := hsplit
    refine ⟨c, ds, by rw [hchars, hname, String.toList_ofList], ?_, fun post hpost => ?_⟩
    · simp [gap?, hspace, hcomment]
    · exact (k.scan_iff _ _ _ _ _).mpr (hkept post hpost)

end Kind

/-- Units are spelled, but for stray characters. -/
theorem spelled_of_scan (hgap : gap? (c :: cs) = none) (h : scan c cs = (l, used, rest))
    (hstray : ∀ d, l ≠ .stray d) : l.Spelled := by
  cases l with
  | keyword word => exact keyword_spelled word
  | punct symbol => exact punct_spelled symbol
  | stray d => exact absurd rfl (hstray d)
  | finish => exact absurd rfl (scan_ne_finish h)
  | identifier name =>
    have hword := word?_of_scan h (.inl ⟨name, rfl⟩)
    refine names.spelled hgap h rfl fun post hpost => ?_
    simp only [names, name?, word?_used_append hword hpost]
  | var name =>
    have hword := word?_of_scan h (.inr ⟨name, rfl⟩)
    refine variableWords.spelled hgap h rfl fun post hpost => ?_
    simp only [variableWords, var?, word?_used_append hword hpost]
  | number digits =>
    refine numbers.spelled hgap h rfl fun post hpost => ?_
    simp only [numbers, digits?, number?_used_append (number?_of_scan h) hpost]
  | quoted text =>
    refine strings.spelled hgap h rfl fun post _ => ?_
    simp only [strings, string?, quoted?_used_append (quoted?_of_scan h) post]

/-- The units of a text are spelled, but for stray characters and the end. -/
theorem spelled_of_mem_lex {t : Token} (ht : t ∈ lex p cs) (hstray : ∀ d, t.lexeme ≠ .stray d)
    (hfinish : t.lexeme ≠ .finish) : t.lexeme.Spelled := by
  induction p, cs using lex_induction with
  | nil p =>
    rw [lex_nil, List.mem_singleton] at ht
    exact absurd (congrArg Token.lexeme ht) hfinish
  | gap p cs used rest hgap ih =>
    rw [lex_gap p hgap] at ht
    exact ih ht
  | unit p c cs lexeme used rest hgap hscan ih =>
    rw [lex_scan p hgap hscan] at ht
    rcases List.mem_cons.mp ht with rfl | ht
    · exact spelled_of_scan hgap hscan hstray
    · exact ih ht

/-- The units of a text, the end of the text among them. -/
def units (cs : List Char) : List Lexeme := (tokens cs).map Token.lexeme

theorem units_blank (cs : List Char) : units (' ' :: cs) = units cs := by
  have hgap : gap? (' ' :: cs) = some ([' '], cs) := rfl
  rw [units, tokens_eq_lex, lex_gap _ hgap, units_lex _ Position.start]
  rfl

theorem units_spelled (h : l.Spelled) (hpost : l.StopsAt post) :
    units (l.chars ++ post) = l :: units post := by
  obtain ⟨c, ds, hchars, hgap, hscan⟩ := h
  have hgap := gap?_eq_none_append hgap post
  rw [hchars, units, tokens_eq_lex, List.cons_append, lex_scan _ hgap (hscan post hpost),
    List.map_cons, units_lex _ Position.start]
  rfl

/-- A unit with a blank behind it. -/
theorem units_word (h : l.Spelled) (hblank : l.goesOn ' ' = false) (post : List Char) :
    units (l.chars ++ ' ' :: post) = l :: units post := by
  rw [units_spelled h (by rintro e ⟨⟩; exact hblank), units_blank]

/-- A text that no word reaches into. -/
def StopsWords (post : List Char) : Prop := ∀ e ∈ post.head?, isWordChar e = false

/-- A text that is cut into units wherever no word reaches into what follows. -/
def CutInto (cs : List Char) (ls : List Lexeme) : Prop :=
  ∀ post, StopsWords post → units (cs ++ post) = ls ++ units post

theorem CutInto.append {as bs : List Char} {ls ms : List Lexeme} (ha : CutInto as ls)
    (hb : CutInto bs ms) (hstop : StopsWords bs) : CutInto (as ++ bs) (ls ++ ms) := by
  intro post hpost
  have hmid : StopsWords (bs ++ post) := by
    cases bs with
    | nil => exact hpost
    | cons b bs => exact hstop
  rw [List.append_assoc, ha _ hmid, hb _ hpost, List.append_assoc]

/-- A text that is cut into units whatever follows. -/
def CutOff (cs : List Char) (ls : List Lexeme) : Prop :=
  ∀ post, units (cs ++ post) = ls ++ units post

namespace CutOff

variable {as bs : List Char} {ls ms : List Lexeme}

theorem cutInto (h : CutOff as ls) : CutInto as ls := fun post _ => h post

theorem append (ha : CutOff as ls) (hb : CutOff bs ms) : CutOff (as ++ bs) (ls ++ ms) := by
  intro post
  rw [List.append_assoc, ha, hb, List.append_assoc]

theorem append_cutInto (ha : CutOff as ls) (hb : CutInto bs ms) :
    CutInto (as ++ bs) (ls ++ ms) := by
  intro post hpost
  rw [List.append_assoc, ha, hb post hpost, List.append_assoc]

theorem blank : CutOff [' '] [] := units_blank

/-- A unit with a blank behind it. -/
theorem word (h : l.Spelled) (hblank : l.goesOn ' ' = false) : CutOff (l.chars ++ [' ']) [l] := by
  intro post
  rw [List.append_assoc]
  exact units_word h hblank post

/-- A symbol that nothing goes on with. -/
theorem punct {s : Punct} (h : nextOf Punct.text Punct.all s = []) :
    CutOff s.text.toList [.punct s] := by
  intro post
  exact units_spelled (punct_spelled s) fun e _ => by simp [Lexeme.goesOn, h]

end CutOff

end AspAtlas.Surface
