import AspAtlas.Proofs.Grammar.Tracks
import AspAtlas.Proofs.Surface.Refusal
/-!
Keywords and symbols of a text and the spellings in the grammar. Of two that a text starts with the
lexer takes the longer and the grammar the one listed first, which is the same as long as a list has
all that go on with one of its own.
-/
namespace AspAtlas.Surface

open Grammar

variable {c : Char} {cs used rest : List Char} {lexeme : Lexeme} {p q : Place}

section Scanning

theorem word?_eq_none (h : isWordChar c = false) : word? (c :: cs) = none := by
  simp [word?, h]

theorem number?_eq_none (h : c.isDigit = false) : number? (c :: cs) = none := by
  simp [number?, h]

theorem quoted?_eq_none (h : c ≠ '"') : quoted? (c :: cs) = none := by
  unfold quoted?
  split
  · simp_all
  · rfl

theorem isWordChar_of_isDigit (h : c.isDigit = true) : isWordChar c = true := by
  simp [isWordChar, Char.isAlphanum, h]

/-- A character that only symbols start with. -/
structure StartsSymbol (c : Char) : Prop where
  notWord : isWordChar c = false
  notQuote : c ≠ '"'
  notHash : c ≠ '#'

theorem notDigit_of_notWord (h : isWordChar c = false) : c.isDigit = false := by
  cases hdigit : c.isDigit with
  | false => rfl
  | true =>
    have hword := isWordChar_of_isDigit hdigit
    rw [h] at hword
    cases hword

theorem toList_keyword (k : Keyword) : ∃ ds, k.text.toList = '#' :: ds := by
  cases k <;> exact ⟨_, rfl⟩

theorem toList_punct (s : Punct) : ∃ d ds, s.text.toList = d :: ds ∧ StartsSymbol d := by
  cases s <;> exact ⟨_, _, rfl, by decide, by decide, by decide⟩

theorem scan_of_longest_keyword {k : Keyword}
    (h : longest? Keyword.text Keyword.all (c :: cs) = some (k, rest)) :
    scan c cs = (.keyword k, k.text.toList, rest) := by
  obtain ⟨-, hsplit⟩ := longest?_split h
  obtain ⟨ds, hds⟩ := toList_keyword k
  rw [hds, List.cons_append, List.cons.injEq] at hsplit
  obtain ⟨rfl, -⟩ := hsplit
  simp [scan, word?_eq_none (c := '#') (by decide), number?_eq_none (c := '#') (by decide),
    quoted?_eq_none (c := '#') (by decide), keyword?, h]

theorem longest_of_scan_keyword {k : Keyword} (h : scan c cs = (.keyword k, used, rest)) :
    longest? Keyword.text Keyword.all (c :: cs) = some (k, rest) := by
  cases scanned_of_scan h with
  | keyword hlongest => exact hlongest

theorem scan_of_longest_punct {s : Punct}
    (h : longest? Punct.text Punct.all (c :: cs) = some (s, rest)) :
    scan c cs = (.punct s, s.text.toList, rest) := by
  obtain ⟨-, hsplit⟩ := longest?_split h
  obtain ⟨d, ds, hds, hd⟩ := toList_punct s
  rw [hds, List.cons_append, List.cons.injEq] at hsplit
  obtain ⟨rfl, -⟩ := hsplit
  have hkeyword : longest? Keyword.text Keyword.all (c :: cs) = none := by
    rw [Option.eq_none_iff_forall_ne_some]
    rintro ⟨k, left⟩ hfound
    obtain ⟨-, hsplit⟩ := longest?_split hfound
    obtain ⟨es, hes⟩ := toList_keyword k
    rw [hes, List.cons_append, List.cons.injEq] at hsplit
    exact hd.notHash hsplit.1
  simp [scan, word?_eq_none hd.notWord, number?_eq_none (notDigit_of_notWord hd.notWord),
    quoted?_eq_none hd.notQuote, keyword?, hkeyword, punct?, h]

theorem longest_of_scan_punct {s : Punct} (h : scan c cs = (.punct s, used, rest)) :
    longest? Punct.text Punct.all (c :: cs) = some (s, rest) := by
  cases scanned_of_scan h with
  | punct hlongest => exact hlongest

theorem stray_of_scan {d : Char} (h : scan c cs = (.stray d, used, rest)) :
    d = c := by
  cases scanned_of_scan h
  rfl

end Scanning

section Spelled

variable {α : Type} [DecidableEq α]

/-- A kind of unit with fixed spellings. -/
structure Vocabulary (α : Type) where
  text : α → String
  all : List α
  lexeme : α → Lexeme
  sorted : LongestFirst text all
  text_ne_nil : ∀ a, (text a).toList ≠ []
  lexeme_injective : ∀ a b, lexeme a = lexeme b → a = b
  lexeme_ne_finish : ∀ a, lexeme a ≠ .finish
  scan_iff : ∀ c cs a used rest, scan c cs = (lexeme a, used, rest) ↔
    used = (text a).toList ∧ longest? text all (c :: cs) = some (a, rest)

def keywords : Vocabulary Keyword where
  text := Keyword.text
  all := Keyword.all
  lexeme := .keyword
  sorted := by
    unfold LongestFirst
    decide
  text_ne_nil := Keyword.toList_text_ne_nil
  lexeme_injective _ _ h := by simpa using h
  lexeme_ne_finish _ := by simp
  scan_iff c cs k used rest := by
    constructor
    · intro h
      have hlongest := longest_of_scan_keyword h
      rw [scan_of_longest_keyword hlongest] at h
      cases h
      exact ⟨rfl, hlongest⟩
    · rintro ⟨rfl, h⟩
      exact scan_of_longest_keyword h

def symbols : Vocabulary Punct where
  text := Punct.text
  all := Punct.all
  lexeme := .punct
  sorted := by
    unfold LongestFirst
    decide
  text_ne_nil := Punct.toList_text_ne_nil
  lexeme_injective _ _ h := by simpa using h
  lexeme_ne_finish _ := by simp
  scan_iff c cs s used rest := by
    constructor
    · intro h
      have hlongest := longest_of_scan_punct h
      rw [scan_of_longest_punct hlongest] at h
      cases h
      exact ⟨rfl, hlongest⟩
    · rintro ⟨rfl, h⟩
      exact scan_of_longest_punct h

namespace Vocabulary

variable {v : Vocabulary α} {part : List α}

omit [DecidableEq α] in
theorem longest?_nil : longest? v.text part [] = none := by
  rw [Option.eq_none_iff_forall_ne_some]
  rintro ⟨a, rest⟩ hfound
  obtain ⟨-, hsplit⟩ := longest?_split hfound
  exact v.text_ne_nil a (List.append_eq_nil_iff.mp hsplit.symm).1

omit [DecidableEq α] in
theorem afterLead?_eq_none {a : α} (h : longest? v.text part cs = none) (ha : a ∈ part) :
    Text.afterLead? (v.text a).toList cs = none := by
  have hentry := List.findSome?_eq_none_iff.mp h a ha
  simpa using hentry

/-- The text of a unit at a place, and the place behind it. -/
structure At (v : Vocabulary α) (p : Place) (a : α) (q : Place) : Prop where
  split : p.skip.rest = (v.text a).toList ++ q.rest
  move : q = p.skip.move (v.text a).toList q.rest
  tokens : p.tokens = ⟨v.lexeme a, p.skip.position, q.position⟩ :: q.tokens

/-- One of a part of a vocabulary matches at a place exactly where a unit of that part stands. -/
theorem longest?_cases (hpart : UpwardClosed v.text v.all part) (p : Place) :
    (longest? v.text part p.skip.rest = none ∧
      ∃ t ts, p.tokens = t :: ts ∧ ∀ a ∈ part, t.lexeme ≠ v.lexeme a) ∨
      ∃ a ∈ part, ∃ q, longest? v.text part p.skip.rest = some (a, q.rest) ∧ v.At p a q := by
  rw [hpart.longest?_eq v.sorted]
  cases p.front with
  | finish hrest h =>
    refine .inl ⟨by rw [hrest, longest?_nil]; rfl, _, _, h, fun a _ he => ?_⟩
    exact v.lexeme_ne_finish a he.symm
  | @unit c cs used rest lexeme hrest hscan h =>
    rw [hrest]
    cases hlongest : longest? v.text v.all (c :: cs) with
    | none =>
      refine .inl ⟨rfl, _, _, h, fun a _ he => ?_⟩
      simp only at he
      subst he
      rw [((v.scan_iff _ _ _ _ _).mp hscan).2] at hlongest
      cases hlongest
    | some found =>
      obtain ⟨a, left⟩ := found
      rw [(v.scan_iff _ _ _ _ _).mpr ⟨rfl, hlongest⟩] at hscan
      cases hscan
      by_cases ha : a ∈ part
      · exact .inr ⟨a, ha, _, by simp [Option.filter, ha],
          by rw [hrest, (longest?_split hlongest).2]; rfl, rfl, h⟩
      · refine .inl ⟨by simp [Option.filter, ha], _, _, h, fun b hb he => ?_⟩
        rw [v.lexeme_injective _ _ he] at ha
        exact ha hb

/-- Where a text starts with one of a part, a unit of that part stands. -/
theorem exists_at (hpart : UpwardClosed v.text v.all part) {a : α} (ha : a ∈ part)
    {rest : List Char}
    (h : p.skip.rest = (v.text a).toList ++ rest) : ∃ b ∈ part, ∃ q, v.At p b q := by
  rcases longest?_cases hpart p with ⟨hnone, -⟩ | ⟨b, hb, q, -, hat⟩
  · have hlead := afterLead?_eq_none hnone ha
    rw [Text.afterLead?_eq_some_iff.mpr h] at hlead
    cases hlead
  · exact ⟨b, hb, q, hat⟩

/-- A reader that takes the units of a part of a vocabulary. -/
structure Picks {β : Type} (v : Vocabulary α) (part : List α) (found : α → Position → Position → β)
    (f : Reader β) : Prop where
  closed : UpwardClosed v.text v.all part
  own : ∀ a ∈ part, ∀ b e ts, f (⟨v.lexeme a, b, e⟩ :: ts) = some (found a b e, ts)
  other : ∀ t ts, (∀ a ∈ part, t.lexeme ≠ v.lexeme a) → f (t :: ts) = none

variable {β : Type} {found : α → Position → Position → β} {f : Reader β}

/-- Such a reader follows the spellings of its units. -/
theorem Picks.tracks (hf : v.Picks part found f) (p : Place) :
    Tracks p.tokens.length (Expr.spellings (part.map v.text)) p
      (fun b q ps => (∃ a ∈ part, b = found a (beginOf p.tokens) q.position) ∧ ps = [])
      (f p.tokens) := by
  have hder := derives_spellings v.text false part p.skip
  rcases longest?_cases hf.closed p with ⟨hnone, t, ts, htokens, hother⟩ | ⟨a, ha, q, hsome, hat⟩
  · rw [hnone] at hder
    rw [htokens, hf.other t ts hother]
    exact .refused hder
  · rw [hsome, Option.map_some, ← hat.move] at hder
    rw [hat.tokens, hf.own a ha]
    exact .taken hder ⟨⟨a, ha, rfl⟩, rfl⟩ (.tokens (Nat.lt_succ_self _))

omit [DecidableEq α] in
theorem At.length_lt {a : α} (hat : v.At p a q) : q.tokens.length < p.tokens.length := by
  rw [hat.tokens]
  exact Nat.lt_succ_self _

omit [DecidableEq α] in
/-- A token rule that matches a unit leaves its text. -/
theorem At.rule {a : α} {r : Rule} (hat : v.At p a q)
    (h : Derives (definition r).isToken (definition r).body p.skip
      (some (p.skip.move (v.text a).toList q.rest, []))) :
    Derives false (.rule r) p.skip
      (some (q, [⟨r, ⟨beginOf p.tokens, q.position⟩, v.text a, []⟩])) := by
  have htext : p.skip.textTo q = v.text a := by
    rw [hat.move, Place.textTo_move hat.split, String.ofList_toList]
  rw [← hat.move] at h
  rw [← htext, p.beginOf_tokens]
  exact .rule h

/-- It follows a token rule of these spellings. -/
theorem Picks.rule_tracks (hf : v.Picks part found f) {r : Rule}
    (hr : definition r = ⟨Expr.spellings (part.map v.text), true⟩) (p : Place) :
    Tracks p.tokens.length (.rule r) p
      (fun b q ps => ∃ a ∈ part, b = found a (beginOf p.tokens) q.position ∧
        ps = [⟨r, ⟨beginOf p.tokens, q.position⟩, v.text a, []⟩]) (f p.tokens) := by
  have hder := derives_spellings v.text true part p.skip
  rcases longest?_cases hf.closed p with ⟨hnone, t, ts, htokens, hother⟩ | ⟨a, ha, q, hsome, hat⟩
  · rw [hnone] at hder
    rw [htokens, hf.other t ts hother]
    refine .refused (.noRule ?_)
    rw [hr]
    exact hder
  · rw [hsome] at hder
    have hrule := hat.rule (r := r) (by rw [hr]; exact hder)
    have hfound : f p.tokens = some (found a (beginOf p.tokens) q.position, q.tokens) := by
      rw [hat.tokens, hf.own a ha]
      rfl
    rw [hfound]
    exact .taken hrule ⟨a, ha, rfl, rfl⟩ (.tokens hat.length_lt)

end Vocabulary

theorem keyword_picks (k : Keyword) (hk : UpwardClosed Keyword.text Keyword.all [k]) :
    keywords.Picks [k] (fun _ _ _ => ()) (keyword k) where
  closed := hk
  own := by simp [keywords, keyword]
  other := by
    rintro ⟨lexeme, b, e⟩ ts h
    cases lexeme <;> simp_all [keywords, keyword]

theorem keywordWith_eq_none {accept : Keyword → Bool} {t : Token} {ts : List Token}
    (h : ∀ k, t.lexeme = .keyword k → accept k = false) : keywordWith accept (t :: ts) = none := by
  obtain ⟨lexeme, b, e⟩ := t
  cases lexeme with
  | keyword k => simp [keywordWith, h k rfl]
  | _ => rfl

theorem keywordWith_picks {accept : Keyword → Bool} {part : List Keyword}
    (hpart : UpwardClosed Keyword.text Keyword.all part)
    (haccept : ∀ k, accept k = true ↔ k ∈ part) :
    keywords.Picks part (fun k _ _ => k) (keywordWith accept) where
  closed := hpart
  own a ha b e ts := by simp [keywords, keywordWith, (haccept a).mpr ha]
  other t ts h := keywordWith_eq_none fun k hk =>
    Bool.eq_false_iff.mpr fun he => h k ((haccept k).mp he) hk

theorem punct_picks (s : Punct) (hs : UpwardClosed Punct.text Punct.all [s]) :
    symbols.Picks [s] (fun _ _ stop => stop) (punct s) where
  closed := hs
  own := by simp [symbols, punct]
  other := by
    rintro ⟨lexeme, b, e⟩ ts h
    cases lexeme <;> simp_all [symbols, punct]

theorem punctWith_picks {accept : Punct → Bool} {part : List Punct}
    (hpart : UpwardClosed Punct.text Punct.all part) (haccept : ∀ s, accept s = true ↔ s ∈ part) :
    symbols.Picks part (fun s _ _ => s) (punctWith accept) where
  closed := hpart
  own a ha b e ts := by simp [symbols, punctWith, (haccept a).mpr ha]
  other := by
    rintro ⟨lexeme, b, e⟩ ts h
    cases lexeme with
    | punct s =>
      have hs : accept s ≠ true := fun he => h s ((haccept s).mp he) rfl
      simp [punctWith, hs]
    | _ => rfl

/-- A keyword that no other one goes on with matches where it stands. -/
theorem keyword_tracks (k : Keyword) (hk : UpwardClosed Keyword.text Keyword.all [k]) (p : Place) :
    Tracks p.tokens.length (.text k.text) p (fun _ _ ps => ps = []) (keyword k p.tokens) :=
  ((keyword_picks k hk).tracks p).imp fun _ _ _ h => h.2

/-- A symbol that no other one goes on with matches where it stands. -/
theorem punct_tracks (s : Punct) (hs : UpwardClosed Punct.text Punct.all [s]) (p : Place) :
    Tracks p.tokens.length (.text s.text) p (fun stop q ps => stop = q.position ∧ ps = [])
      (punct s p.tokens) :=
  ((punct_picks s hs).tracks p).imp fun _ _ _ h => ⟨h.1.choose_spec.2, h.2⟩

end Spelled

end AspAtlas.Surface
