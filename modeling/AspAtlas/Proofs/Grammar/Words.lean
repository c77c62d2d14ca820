import AspAtlas.Proofs.Grammar.Units
/-!
Names, variables, numbers and quoted texts: the token rules of the
grammar cut off what the lexer does.
-/
namespace AspAtlas.Surface

open Grammar

variable {c : Char} {cs used rest : List Char} {name : String} {p q : Place}

section Cutting

theorem takeWhile_split {w v : Char → Bool} (h : ∀ c, v c = true → w c = true) (cs : List Char) :
    cs.takeWhile w = cs.takeWhile v ++ (cs.dropWhile v).takeWhile w ∧
      cs.dropWhile w = (cs.dropWhile v).dropWhile w ∧
      (cs.takeWhile w).dropWhile v = (cs.dropWhile v).takeWhile w := by
  induction cs with
  | nil => simp
  | cons c cs ih =>
    cases hv : v c with
    | true =>
      obtain ⟨htake, hdrop, hboth⟩ := ih
      refine ⟨?_, ?_, ?_⟩
      · simp [h c hv, hv, htake]
      · simp [h c hv, hv, hdrop]
      · simpa [h c hv, hv] using hboth
    | false => cases hw : w c <;> simp [hv, hw]

theorem isWordChar_underscore (c : Char) (h : (c == '_') = true) : isWordChar c = true := by
  simp [isWordChar, h]

theorem isWordChar_of_isAlpha (h : c.isAlpha = true) : isWordChar c = true := by
  have halphanum : c.isAlphanum = true := (Bool.or_eq_true _ _).mpr (.inl h)
  simp [isWordChar, halphanum]

theorem isWordChar_of_isLower (h : c.isLower = true) : isWordChar c = true :=
  isWordChar_of_isAlpha ((Bool.or_eq_true _ _).mpr (.inr h))

theorem isWordChar_of_isUpper (h : c.isUpper = true) : isWordChar c = true :=
  isWordChar_of_isAlpha ((Bool.or_eq_true _ _).mpr (.inl h))

theorem isLower_iff_toNat : c.isLower = true ↔ 'a'.toNat ≤ c.toNat ∧ c.toNat ≤ 'z'.toNat := by
  have hrange : c.isLower = (decide ('a'.val ≤ c.val) && decide (c.val ≤ 'z'.val)) := rfl
  rw [hrange, Bool.and_eq_true, decide_eq_true_eq, decide_eq_true_eq]
  exact and_congr UInt32.le_iff_toNat_le UInt32.le_iff_toNat_le

theorem isUpper_iff_toNat : c.isUpper = true ↔ 'A'.toNat ≤ c.toNat ∧ c.toNat ≤ 'Z'.toNat := by
  have hrange : c.isUpper = decide ('A'.val ≤ c.val ∧ c.val ≤ 'Z'.val) := rfl
  rw [hrange, decide_eq_true_eq]
  exact and_congr UInt32.le_iff_toNat_le UInt32.le_iff_toNat_le

/-- A word by its first character behind the underscores. -/
theorem word?_eq (cs : List Char) :
    word? cs =
      let lead := cs.takeWhile (· == '_')
      match cs.dropWhile (· == '_') with
      | [] => if lead = ['_'] then some (.var "_", lead, []) else none
      | c :: rest =>
        let used := lead ++ c :: rest.takeWhile isWordChar
        let left := rest.dropWhile isWordChar
        if c.isLower then some (.identifier (String.ofList used), used, left)
        else if c.isUpper then some (.var (String.ofList used), used, left)
        else if isWordChar c then none
        else if lead = ['_'] then some (.var "_", lead, c :: rest)
        else none := by
  obtain ⟨htake, hdrop, hboth⟩ := takeWhile_split isWordChar_underscore cs
  simp only [word?, hboth]
  cases htail : cs.dropWhile (· == '_') with
  | nil =>
    rw [htail] at htake hdrop
    simp [htake, hdrop]
  | cons c rest =>
    rw [htail] at htake hdrop
    cases hword : isWordChar c with
    | true => simp [hword, htake, hdrop]
    | false =>
      have hlower : c.isLower = false := by
        cases hc : c.isLower with
        | false => rfl
        | true => simp [isWordChar_of_isLower hc] at hword
      have hupper : c.isUpper = false := by
        cases hc : c.isUpper with
        | false => rfl
        | true => simp [isWordChar_of_isUpper hc] at hword
      simp [hword, hlower, hupper, htake, hdrop]

/-- The name that a text starts with. -/
def name? (cs : List Char) : Option (String × List Char × List Char) :=
  match word? cs with
  | some (.identifier name, used, rest) => some (name, used, rest)
  | _ => none

/-- The variable that a text starts with. -/
def var? (cs : List Char) : Option (String × List Char × List Char) :=
  match word? cs with
  | some (.var name, used, rest) => some (name, used, rest)
  | _ => none

/-- The digits that a text starts with. -/
def digits? (cs : List Char) : Option (String × List Char × List Char) :=
  match number? cs with
  | some (.number digits, used, rest) => some (digits, used, rest)
  | _ => none

/-- The quoted text that a text starts with, with its quotes. -/
def string? (cs : List Char) : Option (String × List Char × List Char) :=
  match quoted? cs with
  | some (.quoted text, used, rest) => some (text, used, rest)
  | _ => none

/-- A kind of unit with a text of its own. -/
structure Kind where
  cut : List Char → Option (String × List Char × List Char)
  lexeme : String → Lexeme
  lexeme_ne_finish : ∀ name, lexeme name ≠ .finish
  cut_nil : cut [] = none
  text : ∀ cs name used rest, cut cs = some (name, used, rest) → name = String.ofList used
  scan_iff : ∀ c cs name used rest,
    scan c cs = (lexeme name, used, rest) ↔ cut (c :: cs) = some (name, used, rest)

theorem word?_of_scan {lexeme : Lexeme} (h : scan c cs = (lexeme, used, rest))
    (hlexeme : (∃ name, lexeme = .identifier name) ∨ ∃ name, lexeme = .var name) :
    word? (c :: cs) = some (lexeme, used, rest) := by
  cases scanned_of_scan h with
  | identifier h | var h => exact h
  | number | quoted | keyword | punct | stray => simp at hlexeme

theorem number?_of_scan {digits : String} (h : scan c cs = (.number digits, used, rest)) :
    number? (c :: cs) = some (.number digits, used, rest) := by
  cases scanned_of_scan h with
  | number h => exact h

theorem quoted?_of_scan {text : String} (h : scan c cs = (.quoted text, used, rest)) :
    quoted? (c :: cs) = some (.quoted text, used, rest) := by
  cases scanned_of_scan h with
  | quoted h => exact h

theorem not_letter_of_isDigit (h : c.isDigit = true) : c.isLower = false ∧ c.isUpper = false := by
  rw [Char.isDigit_iff_toNat] at h
  rw [← Bool.not_eq_true, ← Bool.not_eq_true, isLower_iff_toNat, isUpper_iff_toNat]
  have hnine : '9'.toNat < 'A'.toNat ∧ '9'.toNat < 'a'.toNat := by decide
  omega

theorem word?_digit (h : c.isDigit = true) : word? (c :: cs) = none := by
  have hunderscore : (c == '_') = false := by
    rw [beq_eq_false_iff_ne]
    rintro rfl
    simp at h
  obtain ⟨hlower, hupper⟩ := not_letter_of_isDigit h
  rw [word?_eq]
  simp [hunderscore, hlower, hupper, isWordChar_of_isDigit h]

theorem text_of_word? {lexeme : Lexeme} (h : word? cs = some (lexeme, used, rest))
    (hlexeme : lexeme = .identifier name ∨ lexeme = .var name) : name = String.ofList used := by
  simp only [word?] at h
  split at h
  · split at h
    · cases h
      simpa [eq_comm] using hlexeme
    · split at h <;> cases h
      simpa [eq_comm] using hlexeme
  · split at h
    · rename_i hlone
      cases h
      rw [hlone]
      simpa [eq_comm] using hlexeme
    · cases h

def names : Kind where
  cut := name?
  lexeme := .identifier
  lexeme_ne_finish _ := by simp
  cut_nil := rfl
  text cs name used rest h := by
    unfold name? at h
    split at h
    · rename_i hword
      cases h
      exact text_of_word? hword (.inl rfl)
    · cases h
  scan_iff c cs name used rest := by
    constructor
    · intro h
      simp [name?, word?_of_scan h (.inl ⟨name, rfl⟩)]
    · intro h
      unfold name? at h
      split at h
      · rename_i hword
        cases h
        simp [scan, hword]
      · cases h

def variableWords : Kind where
  cut := var?
  lexeme := .var
  lexeme_ne_finish _ := by simp
  cut_nil := rfl
  text cs name used rest h := by
    unfold var? at h
    split at h
    · rename_i hword
      cases h
      exact text_of_word? hword (.inr rfl)
    · cases h
  scan_iff c cs name used rest := by
    constructor
    · intro h
      simp [var?, word?_of_scan h (.inr ⟨name, rfl⟩)]
    · intro h
      unfold var? at h
      split at h
      · rename_i hword
        cases h
        simp [scan, hword]
      · cases h

def numbers : Kind where
  cut := digits?
  lexeme := .number
  lexeme_ne_finish _ := by simp
  cut_nil := rfl
  text cs name used rest h := by
    unfold digits? at h
    split at h
    · rename_i hnumber
      cases h
      simp only [number?] at hnumber
      split at hnumber <;> cases hnumber
      rfl
    · cases h
  scan_iff c cs name used rest := by
    constructor
    · intro h
      simp [digits?, number?_of_scan h]
    · intro h
      unfold digits? at h
      split at h
      · rename_i hnumber
        cases h
        cases hdigit : c.isDigit with
        | false =>
          rw [number?_eq_none hdigit] at hnumber
          cases hnumber
        | true => simp [scan, word?_digit hdigit, hnumber]
      · cases h

def strings : Kind where
  cut := string?
  lexeme := .quoted
  lexeme_ne_finish _ := by simp
  cut_nil := rfl
  text cs name used rest h := by
    unfold string? at h
    split at h
    · rename_i hquoted
      cases h
      unfold quoted? at hquoted
      split at hquoted
      · simp only [Option.map_eq_some_iff, Prod.mk.injEq, Lexeme.quoted.injEq] at hquoted
        obtain ⟨found, -, rfl, rfl, -⟩ := hquoted
        rfl
      · cases hquoted
    · cases h
  scan_iff c cs name used rest := by
    constructor
    · intro h
      simp [string?, quoted?_of_scan h]
    · intro h
      unfold string? at h
      split at h
      · rename_i hquoted
        cases h
        by_cases hquote : c = '"'
        · subst hquote
          simp [scan, word?_eq_none (c := '"') (by decide),
            number?_eq_none (c := '"') (by decide), hquoted]
        · rw [quoted?_eq_none hquote] at hquoted
          cases hquoted
      · cases h

end Cutting

namespace Kind

variable {k : Kind} {β : Type} {found : String → Position → Position → β} {f : Reader β} {r : Rule}

theorem split (h : k.cut cs = some (name, used, rest)) : cs = used ++ rest := by
  cases cs with
  | nil =>
    rw [k.cut_nil] at h
    cases h
  | cons c cs => exact scan_split ((k.scan_iff _ _ _ _ _).mpr h)

/-- A reader that takes the units of a kind. -/
structure Picks (k : Kind) (found : String → Position → Position → β) (f : Reader β) : Prop where
  own : ∀ name b e ts, f (⟨k.lexeme name, b, e⟩ :: ts) = some (found name b e, ts)
  other : ∀ t ts, (∀ name, t.lexeme ≠ k.lexeme name) → f (t :: ts) = none

/-- A token rule that cuts off the units of a kind. -/
def Cuts (k : Kind) (r : Rule) : Prop :=
  (definition r).isToken = true ∧ ∀ p : Place, Derives true (definition r).body p
    ((k.cut p.rest).map fun found => (p.move found.2.1 found.2.2, []))

/-- Such a reader follows such a rule. -/
theorem Picks.tracks (hf : k.Picks found f) (hr : k.Cuts r) (p : Place) :
    Tracks p.tokens.length (.rule r) p
      (fun b q ps => ∃ name, b = found name (beginOf p.tokens) q.position ∧
        ps = [⟨r, ⟨beginOf p.tokens, q.position⟩, name, []⟩]) (f p.tokens) := by
  obtain ⟨htoken, hder⟩ := hr
  have hder := hder p.skip
  rw [← htoken] at hder
  cases p.front with
  | finish hrest h =>
    rw [hrest, k.cut_nil] at hder
    rw [h, hf.other _ _ fun name he => k.lexeme_ne_finish name he.symm]
    exact .refused (.noRule hder)
  | @unit c cs used rest lexeme hrest hscan h =>
    rw [hrest] at hder
    cases hcut : k.cut (c :: cs) with
    | none =>
      rw [hcut] at hder
      have hother : f p.tokens = none := by
        rw [h]
        refine hf.other _ _ fun name he => ?_
        simp only at he
        subst he
        rw [(k.scan_iff _ _ _ _ _).mp hscan] at hcut
        cases hcut
      rw [hother]
      exact .refused (.noRule hder)
    | some cut =>
      obtain ⟨name, used', rest'⟩ := cut
      rw [hcut] at hder
      rw [(k.scan_iff _ _ _ _ _).mpr hcut] at hscan
      cases hscan
      have hsplit : p.skip.rest = used ++ rest := by rw [hrest, split hcut]
      have htext : p.skip.textTo (p.skip.move used rest) = name := by
        rw [Place.textTo_move hsplit, k.text _ _ _ _ hcut]
      have hrule : Derives false (.rule r) p.skip (some (p.skip.move used rest,
          [⟨r, ⟨p.skip.position, (p.skip.move used rest).position⟩,
            p.skip.textTo (p.skip.move used rest), []⟩])) :=
        .rule hder
      have hlt : (p.skip.move used rest).tokens.length < p.tokens.length := by
        rw [h]
        exact Nat.lt_succ_self _
      rw [htext] at hrule
      have hfound : f p.tokens =
          some (found name (beginOf p.tokens) (p.skip.move used rest).position,
          (p.skip.move used rest).tokens) := by
        rw [h, hf.own]
        rfl
      rw [hfound]
      refine .taken hrule ⟨name, rfl, ?_⟩ (.tokens hlt)
      rw [p.beginOf_tokens]

end Kind

section Cuts

variable {e : Expr Rule} {accept : Char → Bool} {xs ys : List Pair}

theorem move_move {a b ds : List Char} : (p.move a ds).move b rest = p.move (a ++ b) rest := by
  simp [Place.move, advanceBy_append]

theorem derives_rep_again {s : Place} (ha : Derives true e p (some (q, xs)))
    (hrep : Derives true (.rep e) q (some (s, ys))) :
    Derives true (.rep e) p (some (s, xs ++ ys)) := by
  cases hrep with
  | never h =>
    rw [List.append_nil]
    exact .last ha h
  | last h hb => exact .again ha h (.last h hb)
  | again h hb hmore => exact .again ha h (.again h hb hmore)

/-- An expression that takes one character if it is accepted. -/
def TakesChar (e : Expr Rule) (accept : Char → Bool) : Prop :=
  (∀ p : Place, p.rest = [] → Derives true e p none) ∧
    ∀ (p : Place) c rest, p.rest = c :: rest →
      Derives true e p (if accept c then some (p.move [c] rest, []) else none)

theorem takesChar_char (accept : Char → Bool) : TakesChar (.char accept) accept := by
  constructor
  · intro p h
    exact .noChar (by simp [h])
  · intro p c rest h
    split
    · exact .char h ‹_›
    · exact .noChar (by simp_all)

theorem takesChar_text {s : String} (hs : s.toList = [c]) : TakesChar (.text s) (· == c) := by
  constructor
  · intro p h
    exact .noText (by simp [hs, h, Text.afterLead?])
  · intro p d rest h
    split
    · rename_i hd
      obtain rfl := beq_iff_eq.mp hd
      rw [← hs]
      exact .text (by simp [hs, h, Text.afterLead?])
    · rename_i hd
      have hne : c ≠ d := fun he => hd (by simp [he])
      exact .noText (by simp [hs, h, Text.afterLead?, hne])

theorem TakesChar.rep (he : TakesChar e accept) (p : Place) :
    Derives true (.rep e) p
      (some (p.move (p.rest.takeWhile accept) (p.rest.dropWhile accept), [])) := by
  obtain ⟨hnil, hcons⟩ := he
  induction hrest : p.rest generalizing p with
  | nil =>
    have hend : p.move [] [] = p := by
      cases p
      simp_all [Place.move, advanceBy]
    have hder := Derives.never (hnil p hrest)
    simpa [hend] using hder
  | cons c rest ih =>
    have hfirst := hcons p c rest hrest
    cases hc : accept c with
    | false =>
      have hend : p.move [] (c :: rest) = p := by
        cases p
        simp_all [Place.move, advanceBy]
      rw [hc] at hfirst
      have hder := Derives.never hfirst
      simpa [hc, hend] using hder
    | true =>
      rw [hc] at hfirst
      have hmore := ih (p.move [c] rest) rfl
      rw [move_move] at hmore
      simpa [hc] using derives_rep_again hfirst hmore

/-- Underscores, a letter of a kind and word characters. -/
theorem derives_word (accept : Char → Bool) (p : Place) :
    Derives true (Expr.parts [underscores, .char accept, .rep wordChar]) p
      (match p.rest.dropWhile (· == '_') with
        | [] => none
        | c :: rest =>
          if accept c then
            some (p.move (p.rest.takeWhile (· == '_') ++ c :: rest.takeWhile isWordChar)
              (rest.dropWhile isWordChar), [])
          else none) := by
  have hlead := (takesChar_text (c := '_') (s := "_") (by decide)).rep p
  generalize p.rest.takeWhile (· == '_') = lead at hlead ⊢
  generalize p.rest.dropWhile (· == '_') = tail at hlead ⊢
  obtain ⟨hnil, hcons⟩ := takesChar_char accept
  cases tail with
  | nil => exact .noSecond hlead (.noFirst (hnil _ rfl))
  | cons c rest =>
    have hletter := hcons (p.move lead (c :: rest)) c rest rfl
    cases hc : accept c with
    | false =>
      rw [hc] at hletter
      simp only [hc]
      exact .noSecond hlead (.noFirst hletter)
    | true =>
      rw [hc] at hletter
      have hmore := (takesChar_char isWordChar).rep ((p.move lead (c :: rest)).move [c] rest)
      rw [move_move, move_move] at hmore
      rw [move_move] at hletter
      have hder : Derives true (Expr.parts [underscores, .char accept, .rep wordChar]) p _ :=
        .seq hlead (.seq hletter hmore)
      simpa [hc] using hder

theorem name?_eq (cs : List Char) :
    name? cs =
      match cs.dropWhile (· == '_') with
      | [] => none
      | c :: rest =>
        let used := cs.takeWhile (· == '_') ++ c :: rest.takeWhile isWordChar
        if c.isLower then some (String.ofList used, used, rest.dropWhile isWordChar) else none := by
  unfold name?
  rw [word?_eq]
  cases cs.dropWhile (· == '_') with
  | nil => by_cases hlead : cs.takeWhile (· == '_') = ['_'] <;> simp [hlead]
  | cons c rest =>
    cases hlower : c.isLower with
    | true => simp [hlower]
    | false =>
      cases hupper : c.isUpper with
      | true => simp [hlower, hupper]
      | false =>
        cases hword : isWordChar c with
        | true => simp [hlower, hupper, hword]
        | false => by_cases hlead : cs.takeWhile (· == '_') = ['_'] <;>
            simp [hlower, hupper, hword, hlead]

theorem not_isUpper_of_isLower (h : c.isLower = true) : c.isUpper = false := by
  rw [isLower_iff_toNat] at h
  rw [← Bool.not_eq_true, isUpper_iff_toNat]
  have hupper : 'Z'.toNat < 'a'.toNat := by decide
  omega

theorem var?_eq (cs : List Char) :
    var? cs =
      let lead := cs.takeWhile (· == '_')
      match cs.dropWhile (· == '_') with
      | [] => if lead = ['_'] then some ("_", ['_'], []) else none
      | c :: rest =>
        let used := lead ++ c :: rest.takeWhile isWordChar
        if c.isUpper then some (String.ofList used, used, rest.dropWhile isWordChar)
        else if lead = ['_'] ∧ isWordChar c = false then some ("_", ['_'], c :: rest)
        else none := by
  unfold var?
  rw [word?_eq]
  cases cs.dropWhile (· == '_') with
  | nil => by_cases hlead : cs.takeWhile (· == '_') = ['_'] <;> simp [hlead]
  | cons c rest =>
    cases hlower : c.isLower with
    | true => simp [hlower, not_isUpper_of_isLower hlower, isWordChar_of_isLower hlower]
    | false =>
      cases hupper : c.isUpper with
      | true => simp [hlower, hupper]
      | false =>
        cases hword : isWordChar c with
        | true => simp [hlower, hupper, hword]
        | false => by_cases hlead : cs.takeWhile (· == '_') = ['_'] <;>
            simp [hlower, hupper, hword, hlead]

theorem names_cuts : names.Cuts .identifier := by
  refine ⟨rfl, fun p => ?_⟩
  have hder := derives_word Char.isLower p
  change Derives true (Expr.parts [underscores, .char Char.isLower, .rep wordChar]) p
    ((name? p.rest).map fun found => (p.move found.2.1 found.2.2, []))
  rw [name?_eq]
  cases htail : p.rest.dropWhile (· == '_') with
  | nil =>
    rw [htail] at hder
    exact hder
  | cons c rest =>
    rw [htail] at hder
    cases hc : c.isLower <;> simpa [hc] using hder

/-- An underscore on its own. -/
theorem derives_underscore (p : Place) :
    Derives true (.seq (.text "_") (.absent wordChar)) p
      (if p.rest.takeWhile (· == '_') = ['_'] ∧
          (p.rest.dropWhile (· == '_')).head?.any isWordChar = false then
        some (p.move ['_'] (p.rest.dropWhile (· == '_')), [])
      else none) := by
  have hfirst := takesChar_text (c := '_') (s := "_") (by decide)
  have hsecond := takesChar_char isWordChar
  cases hrest : p.rest with
  | nil => exact .noFirst (hfirst.1 p hrest)
  | cons c rest =>
    have hlead := hfirst.2 p c rest hrest
    by_cases hc : c = '_'
    · subst hc
      simp only [beq_self_eq_true, if_true] at hlead
      cases rest with
      | nil => exact .seq hlead (.absent (hsecond.1 _ rfl))
      | cons d rest =>
        have hnext := hsecond.2 (p.move ['_'] (d :: rest)) d rest rfl
        cases hd : isWordChar d with
        | true =>
          rw [hd] at hnext
          have hnone : ¬ (List.takeWhile (· == '_') ('_' :: d :: rest) = ['_'] ∧
              (List.dropWhile (· == '_') ('_' :: d :: rest)).head?.any isWordChar = false) := by
            by_cases hunderscore : d = '_'
            · simp [hunderscore]
            · simp [hunderscore, hd]
          rw [if_neg hnone]
          exact .noSecond hlead (.present hnext)
        | false =>
          rw [hd] at hnext
          have hunderscore : d ≠ '_' := by
            rintro rfl
            simp [isWordChar] at hd
          have hder : Derives true (.seq (.text "_") (.absent wordChar)) p
              (some (p.move ['_'] (d :: rest), [])) := .seq hlead (.absent hnext)
          simpa [hunderscore, hd] using hder
    · have hder : Derives true (.seq (.text "_") (.absent wordChar)) p none := by
        simp only [beq_iff_eq, hc, if_false] at hlead
        exact .noFirst hlead
      simpa [hc] using hder

theorem variables_cuts : variableWords.Cuts .var := by
  refine ⟨rfl, fun p => ?_⟩
  have hword := derives_word Char.isUpper p
  have hlone := derives_underscore p
  change Derives true (.alt (Expr.parts [underscores, .char Char.isUpper, .rep wordChar])
    (.seq (.text "_") (.absent wordChar))) p
      ((var? p.rest).map fun found => (p.move found.2.1 found.2.2, []))
  rw [var?_eq]
  cases htail : p.rest.dropWhile (· == '_') with
  | nil =>
    rw [htail] at hword hlone
    have hder := Derives.right hword hlone
    by_cases hlead : p.rest.takeWhile (· == '_') = ['_'] <;> simpa [hlead] using hder
  | cons c rest =>
    rw [htail] at hword hlone
    cases hc : c.isUpper with
    | true =>
      simp only [hc, if_true] at hword
      simpa [hc] using Derives.left hword
    | false =>
      simp only [hc] at hword
      have hder := Derives.right hword hlone
      by_cases hlead : p.rest.takeWhile (· == '_') = ['_'] <;>
        cases hd : isWordChar c <;> simpa [hlead, hc, hd] using hder

theorem numbers_cuts : numbers.Cuts .number := by
  refine ⟨rfl, fun p => ?_⟩
  have hdigit := takesChar_char Char.isDigit
  change Derives true (.seq (.char Char.isDigit) (.rep (.char Char.isDigit))) p
    ((digits? p.rest).map fun found => (p.move found.2.1 found.2.2, []))
  cases hrest : p.rest with
  | nil => exact .noFirst (hdigit.1 p hrest)
  | cons c rest =>
    have hfirst := hdigit.2 p c rest hrest
    cases hc : c.isDigit with
    | false =>
      simp only [hc] at hfirst
      have hnone : digits? (c :: rest) = none := by simp [digits?, number?_eq_none hc]
      rw [hnone]
      exact .noFirst hfirst
    | true =>
      simp only [hc, if_true] at hfirst
      have hmore := hdigit.rep (p.move [c] rest)
      rw [move_move] at hmore
      have hder : Derives true (.seq (.char Char.isDigit) (.rep (.char Char.isDigit))) p _ :=
        .seq hfirst hmore
      have hsome : digits? (c :: rest) = some (String.ofList (c :: rest.takeWhile Char.isDigit),
          c :: rest.takeWhile Char.isDigit, rest.dropWhile Char.isDigit) := by
        simp [digits?, number?, hc]
      rw [hsome]
      simpa using hder

/-- A character inside quotes, or an escaped one. -/
def quotedChar : Expr Rule := .alt (.seq (.text "\\") anyChar) (.seq (.absent (.text "\"")) anyChar)

/-- One character more inside the quotes. -/
theorem derives_quotedTail_step {a ds : List Char} {found : Option (List Char × List Char)}
    (hstep : Derives true quotedChar p (some (p.move a ds, [])))
    (h : Derives true (.seq (.rep quotedChar) (.text "\"")) (p.move a ds)
      (found.map fun found => ((p.move a ds).move found.1 found.2, []))) :
    Derives true (.seq (.rep quotedChar) (.text "\"")) p
      (found.map fun found => (p.move (a ++ found.1) found.2, [])) := by
  cases found with
  | none =>
    cases h with
    | noFirst ha => cases ha
    | noSecond ha hb => exact .noSecond (derives_rep_again hstep ha) hb
  | some found =>
    rw [Option.map_some, move_move] at h
    generalize hlast : some (p.move (a ++ found.1) found.2, ([] : List Pair)) = last at h
    cases h with
    | noFirst ha => cases hlast
    | noSecond ha hb => cases hlast
    | seq ha hb =>
      rw [Option.map_some, hlast]
      exact .seq (derives_rep_again hstep ha) hb

/-- The inside of a quoted text and its closing quote. -/
theorem derives_quotedTail (p : Place) :
    Derives true (.seq (.rep quotedChar) (.text "\"")) p
      ((quotedTail? p.rest).map fun found => (p.move found.1 found.2, [])) := by
  have hslash := takesChar_text (c := '\\') (s := "\\") (by decide)
  have hquote := takesChar_text (c := '"') (s := "\"") (by decide)
  have hany := takesChar_char fun _ => true
  induction hrest : p.rest using quotedTail?.induct generalizing p with
  | case1 =>
    have hnone : Derives true quotedChar p none :=
      .right (.noFirst (hslash.1 p hrest)) (.noSecond (.absent (hquote.1 p hrest)) (hany.1 p hrest))
    exact .noSecond (.never hnone) (hquote.1 p hrest)
  | case2 c rest ih =>
    have hfirst := hslash.2 p '\\' (c :: rest) hrest
    have hsecond := hany.2 (p.move ['\\'] (c :: rest)) c rest rfl
    have hstep : Derives true quotedChar p (some (p.move ['\\', c] rest, [])) :=
      .left (.seq hfirst hsecond)
    have hmore := derives_quotedTail_step hstep (ih (p.move ['\\', c] rest) rfl)
    cases htail : quotedTail? rest <;> simpa [quotedTail?, htail] using hmore
  | case3 rest =>
    have hslash' := hslash.2 p '"' rest hrest
    have hquote' := hquote.2 p '"' rest hrest
    have hnone : Derives true quotedChar p none :=
      .right (.noFirst hslash') (.noFirst (.present hquote'))
    exact .seq (.never hnone) hquote'
  | case4 c rest hescape hclose ih =>
    have hstep : Derives true quotedChar p (some (p.move [c] rest, [])) := by
      have hquote' := hquote.2 p c rest hrest
      have hany' := hany.2 p c rest hrest
      have hne : (c == '"') = false := beq_eq_false_iff_ne.mpr hclose
      simp only [hne] at hquote'
      have hplain : Derives true (.seq (.absent (.text "\"")) anyChar) p
          (some (p.move [c] rest, [])) :=
        .seq (.absent hquote') hany'
      have hslash' := hslash.2 p c rest hrest
      by_cases hc : c = '\\'
      · subst hc
        cases rest with
        | nil => exact .right (.noSecond hslash' (hany.1 _ rfl)) hplain
        | cons d rest => exact absurd rfl (hescape d rest rfl)
      · have hne' : (c == '\\') = false := beq_eq_false_iff_ne.mpr hc
        simp only [hne'] at hslash'
        exact .right (.noFirst hslash') hplain
    have hmore := derives_quotedTail_step hstep (ih (p.move [c] rest) rfl)
    have htail : quotedTail? (c :: rest) =
        (quotedTail? rest).map fun found => (c :: found.1, found.2) := by
      rw [quotedTail?]
      · exact hescape
      · exact hclose
    rw [htail, Option.map_map]
    exact hmore

theorem strings_cuts : strings.Cuts .string := by
  refine ⟨rfl, fun p => ?_⟩
  have hquote := takesChar_text (c := '"') (s := "\"") (by decide)
  change Derives true (.seq (.text "\"") (.seq (.rep quotedChar) (.text "\""))) p
    ((string? p.rest).map fun found => (p.move found.2.1 found.2.2, []))
  cases hrest : p.rest with
  | nil => exact .noFirst (hquote.1 p hrest)
  | cons c rest =>
    have hfirst := hquote.2 p c rest hrest
    by_cases hc : c = '"'
    · subst hc
      simp only [beq_self_eq_true, if_true] at hfirst
      have htail := derives_quotedTail (p.move ['"'] rest)
      cases hfound : quotedTail? rest with
      | none =>
        rw [Place.rest_move, hfound] at htail
        simpa [string?, quoted?, hfound] using Derives.noSecond hfirst htail
      | some found =>
        rw [Place.rest_move, hfound, Option.map_some, move_move] at htail
        simpa [string?, quoted?, hfound] using Derives.seq hfirst htail
    · have hnone : string? (c :: rest) = none := by simp [string?, quoted?_eq_none hc]
      simp only [beq_iff_eq, hc, if_false] at hfirst
      rw [hnone]
      exact .noFirst hfirst

/-- The word that negates, on its own. -/
theorem name?_not_iff : name? cs = some ("not", used, rest) ↔
    used = ['n', 'o', 't'] ∧ cs = 'n' :: 'o' :: 't' :: rest ∧
      ∀ c ∈ rest.head?, isWordChar c = false := by
  constructor
  · intro h
    have htext := congrArg String.toList (names.text _ _ _ _ h)
    have hsplit := Kind.split (k := names) h
    obtain rfl : used = ['n', 'o', 't'] := by simpa [eq_comm] using htext
    refine ⟨rfl, hsplit, ?_⟩
    unfold name? at h
    split at h
    · rename_i hword
      cases h
      obtain ⟨-, hrest⟩ := word?_split hword
      intro c hc
      have hhead := List.head?_dropWhile_not isWordChar cs
      rw [← hrest, Option.mem_def.mp hc] at hhead
      simpa using hhead
    · cases h
  · rintro ⟨rfl, rfl, hend⟩
    have hn : 'n'.isLower = true := by decide
    have ho : isWordChar 'o' = true := by decide
    have ht : isWordChar 't' = true := by decide
    have hstop : rest.takeWhile isWordChar = [] ∧ rest.dropWhile isWordChar = rest := by
      cases rest with
      | nil => exact ⟨rfl, rfl⟩
      | cons d rest => simp [hend d rfl]
    rw [name?_eq]
    simp [hn, ho, ht, hstop]

theorem derives_not (p : Place) :
    Derives true (.seq (.text "not") (.absent wordChar)) p
      (match name? p.rest with
        | some ("not", used, rest) => some (p.move used rest, [])
        | _ => none) := by
  have hword := takesChar_char isWordChar
  cases hlead : Text.afterLead? "not".toList p.rest with
  | none =>
    have hother : ∀ used rest, name? p.rest ≠ some ("not", used, rest) := by
      intro used rest h
      obtain ⟨-, hsplit, -⟩ := name?_not_iff.mp h
      have hfound : Text.afterLead? "not".toList p.rest = some rest :=
        Text.afterLead?_eq_some_iff.mpr hsplit
      rw [hfound] at hlead
      cases hlead
    split
    · exact absurd ‹_› (hother _ _)
    · exact .noFirst (.noText hlead)
  | some rest =>
    have hsplit := Text.afterLead?_eq_some_iff.mp hlead
    have htext : Derives true (.text "not") p (some (p.move "not".toList rest, [])) := .text hlead
    by_cases hend : ∀ c ∈ rest.head?, isWordChar c = false
    · have hname : name? p.rest = some ("not", ['n', 'o', 't'], rest) :=
        name?_not_iff.mpr ⟨rfl, hsplit, hend⟩
      rw [hname]
      refine .seq htext (.absent ?_)
      cases rest with
      | nil => exact hword.1 _ rfl
      | cons c rest =>
        have hnext := hword.2 (p.move "not".toList (c :: rest)) c rest rfl
        rw [hend c rfl] at hnext
        exact hnext
    · have hother : ∀ used left, name? p.rest ≠ some ("not", used, left) := by
        intro used left h
        obtain ⟨-, hsplit', hend'⟩ := name?_not_iff.mp h
        obtain rfl : rest = left := List.append_cancel_left (hsplit.symm.trans hsplit')
        exact hend hend'
      split
      · exact absurd ‹_› (hother _ _)
      · cases rest with
        | nil => simp at hend
        | cons c rest =>
          have hc : isWordChar c = true := by simpa using hend
          have hnext := hword.2 (p.move "not".toList (c :: rest)) c rest rfl
          rw [hc] at hnext
          exact .noSecond htext (.present hnext)

/-- The word that negates matches where it stands. -/
theorem negator_tracks (p : Place) :
    Tracks p.tokens.length (.rule .notKeyword) p (fun _ _ ps => ps.length = 1)
      (negator p.tokens) := by
  have hder := derives_not p.skip
  cases p.front with
  | finish hrest h =>
    rw [hrest] at hder
    rw [h]
    exact .refused (.noRule hder)
  | @unit c cs used rest lexeme hrest hscan h =>
    rw [hrest] at hder
    by_cases hnot : lexeme = .identifier "not"
    · subst hnot
      have hname : name? (c :: cs) = some ("not", used, rest) := (names.scan_iff _ _ _ _ _).mp hscan
      rw [hname] at hder
      have hlt : (p.skip.move used rest).tokens.length < p.tokens.length := by
        rw [h]
        exact Nat.lt_succ_self _
      rw [h] at hlt ⊢
      exact .taken (.rule hder) rfl (.tokens hlt)
    · have hnone : negator p.tokens = none := by
        rw [h]
        unfold negator
        split
        · simp_all
        · rfl
      rw [hnone]
      split at hder
      · rename_i hname
        have hscan' := (names.scan_iff _ _ _ _ _).mpr hname
        rw [hscan] at hscan'
        cases hscan'
        exact absurd rfl hnot
      · exact .refused (.noRule hder)

/-- The end of the text matches where no token is left. -/
theorem finish_cases (p : Place) :
    (p.tokens = [⟨.finish, p.skip.position, p.skip.position⟩] ∧ ∃ pair : Pair, pair.rule = .finish ∧
        Derives false (.rule .finish) p.skip (some (p.skip, [pair]))) ∨
      (∃ t ts, p.tokens = t :: ts ∧ t.lexeme ≠ .finish ∧
        Derives false (.rule .finish) p.skip none) := by
  cases p.front with
  | finish hrest h => exact .inl ⟨h, _, rfl, .rule (.finish hrest)⟩
  | unit hrest hscan h =>
    exact .inr ⟨_, _, h, scan_ne_finish hscan, .noRule (.noFinish (by simp [hrest]))⟩

end Cuts

end AspAtlas.Surface
