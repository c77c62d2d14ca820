import AspAtlas.Proofs.Json.Codec
import AspAtlas.Proofs.Toml.Quoted
import AspAtlas.Toml.Parser
/-!
Reading back values: texts, lists of texts, truth values and numbers.
-/
namespace AspAtlas.Toml

variable {c : Char} {n : Nat} {cs ds rest : List Char}

-- The readers of values are opened in the proofs below.
attribute [local simp] value? scalar? itemsTail skipGaps digitTail

/-- A text that is read as a value behind blanks, whatever may follow it. -/
def StandsFor (written : String) (v : Value) : Prop :=
  ∀ n rest, Json.Follows rest → value? (n + 1) (skipSpace (written.toList ++ rest)) = some (v, rest)

theorem skipSpace_of_head (h : isSpace c = false) : skipSpace (c :: cs) = c :: cs := by
  simp [skipSpace, h]

section Texts

/-- A written text starts with a quote. -/
theorem exists_quotedChars_cons (text : List Char) :
    ∃ quote cs, quotedChars text = quote :: cs ∧ (quote = '"' ∨ quote = '\'') := by
  simp only [quotedChars, block]
  split_ifs <;> simp

theorem value?_quote {quote : Char} (h : quote = '"' ∨ quote = '\'') :
    value? n (quote :: cs) = (quoted? (quote :: cs)).map
      fun (text, rest) => (.text text, rest) := by
  cases n <;> rcases h with rfl | rfl <;> simp

theorem value?_quotedChars (text : String) (hrest : Json.Follows rest) :
    value? n (quotedChars text.toList ++ rest) = some (.text text, rest) := by
  have hread := quoted?_quotedChars text.toList hrest
  obtain ⟨quote, cs, hquoted, hquote⟩ := exists_quotedChars_cons text.toList
  rw [hquoted, List.cons_append] at hread ⊢
  rw [value?_quote hquote, hread, Option.map_some, String.ofList_toList]

theorem skipSpace_quotedChars (text : List Char) :
    skipSpace (quotedChars text ++ rest) = quotedChars text ++ rest := by
  obtain ⟨quote, cs, hquoted, hquote⟩ := exists_quotedChars_cons text
  rw [hquoted, List.cons_append]
  rcases hquote with rfl | rfl <;> exact skipSpace_of_head rfl

theorem standsFor_quoted (text : String) : StandsFor (quoted text) (.text text) := by
  intro n rest hrest
  rw [quoted, String.toList_ofList, skipSpace_quotedChars, value?_quotedChars text hrest]

end Texts

section Lists

/-- The lines of a list, one for each text. -/
def rows (texts : List String) : List Char :=
  texts.flatMap fun text => "    ".toList ++ (quotedChars text.toList ++ ",\n".toList)

theorem skipGaps_quotedChars (text : List Char) :
    skipGaps false (quotedChars text ++ rest) = quotedChars text ++ rest := by
  obtain ⟨quote, cs, hquoted, hquote⟩ := exists_quotedChars_cons text
  rw [hquoted, List.cons_append]
  rcases hquote with rfl | rfl <;> simp [isSpace]

/-- An item of a list is read, and then the comma or the bracket that follows it. -/
theorem itemsTail_item {text : String} {found : List Value} {m : Nat} {tail : List Char}
    (hcs : skipGaps false cs = quotedChars text.toList ++ tail) (htail : Json.Follows tail) :
    (skipGaps false tail = ',' :: rest →
      itemsTail (value? n) (m + 1) found cs = itemsTail (value? n) m (.text text :: found) rest) ∧
    (skipGaps false tail = ']' :: rest →
      itemsTail (value? n) (m + 1) found cs =
        some (.array (.text text :: found).reverse, rest)) := by
  have hread := value?_quotedChars (n := n) text htail
  obtain ⟨quote, more, hquoted, hquote⟩ := exists_quotedChars_cons text.toList
  rw [hquoted, List.cons_append] at hcs hread
  have hopen : quote ≠ ']' := by rcases hquote with rfl | rfl <;> decide
  constructor <;>
    · intro h
      simp [hcs, hopen, hread, h]

/-- Behind the opening bracket a list of lines is read up to the closing one. -/
theorem itemsTail_rows {texts : List String} {m : Nat} (found : List Value)
    (hm : texts.length < m) : itemsTail (value? n) m found ('\n' :: (rows texts ++ ']' :: rest)) =
      some (.array (found.reverse ++ texts.map .text), rest) := by
  induction texts generalizing found m with
  | nil =>
    obtain ⟨k, rfl⟩ : ∃ k, m = k + 1 := ⟨m - 1, by omega⟩
    simp [rows, isSpace]
  | cons text texts ih =>
    rw [List.length_cons] at hm
    obtain ⟨k, rfl⟩ : ∃ k, m = k + 1 := ⟨m - 1, by omega⟩
    have hrows : skipGaps false ('\n' :: (rows (text :: texts) ++ ']' :: rest)) =
        quotedChars text.toList ++ (',' :: '\n' :: (rows texts ++ ']' :: rest)) := by
      rw [← skipGaps_quotedChars]
      simp [rows, isSpace]
    have hcomma (cs : List Char) : skipGaps false (',' :: cs) = ',' :: cs := by simp [isSpace]
    rw [(itemsTail_item hrows (by simp [Json.Follows])).1 (hcomma _),
      ih (.text text :: found) (Nat.lt_of_succ_lt_succ hm)]
    simp

theorem length_le_rows (texts : List String) : texts.length ≤ (rows texts).length := by
  induction texts with
  | nil => exact Nat.le_refl _
  | cons text texts ih =>
    simp only [rows, List.flatMap_cons, List.length_append, List.length_cons] at ih ⊢
    have hrow : "    ".toList.length = 4 := rfl
    omega

theorem toList_listOf (first second : String) (texts : List String) :
    (listOf ((first :: second :: texts).map quoted)).toList =
      '[' :: '\n' :: (rows (first :: second :: texts) ++ [']']) := by
  simp [listOf, rows, quoted, List.flatMap_map]

/-- A list of texts is read back, whether it stands on one line or on several. -/
theorem standsFor_listOf (texts : List String) :
    StandsFor (listOf (texts.map quoted)) (.array (texts.map .text)) := by
  intro n rest hrest
  match texts with
  | [] => simp [listOf, skipSpace, isSpace]
  | [text] =>
    have hlist : (listOf [quoted text]).toList = '[' :: (quotedChars text.toList ++ [']']) := by
      simp [listOf, quoted]
    have hclose (cs : List Char) : skipGaps false (']' :: cs) = ']' :: cs := by simp [isSpace]
    rw [List.map_singleton, hlist, List.cons_append, skipSpace_of_head rfl, value?,
      List.append_assoc, List.singleton_append,
      (itemsTail_item (skipGaps_quotedChars _) (by simp [Json.Follows])).2 (hclose _)]
    rfl
  | first :: second :: texts =>
    have hlength := length_le_rows (first :: second :: texts)
    rw [toList_listOf, List.cons_append, skipSpace_of_head rfl, value?, List.cons_append,
      List.append_assoc, List.singleton_append, itemsTail_rows]
    · rfl
    · simp only [List.length_cons, List.length_append] at hlength ⊢
      omega

end Lists

theorem standsFor_truth (value : Bool) :
    StandsFor (if value then "true" else "false") (.truth value) := by
  intro n rest _
  cases value <;> simp [skipSpace, isSpace]

section Numbers

variable (hds : ∀ d ∈ ds, d.isDigit = true) (hrest : Json.Follows rest)
include hds hrest

theorem digitTail_append (found : List Char) :
    digitTail Char.isDigit found (ds ++ rest) = some (found.reverse ++ ds, rest) := by
  induction ds generalizing found with
  | nil =>
    cases rest with
    | nil => simp
    | cons c rest => rcases hrest c rfl with rfl | rfl | rfl | rfl <;> simp
  | cons d ds ih =>
    obtain ⟨hd, hds⟩ := List.forall_mem_cons.mp hds
    have hline : d ≠ '_' := Json.ne_of_isDigit hd rfl
    rw [List.cons_append, digitTail, if_pos hd, ih hds, List.reverse_cons, List.append_assoc,
      List.singleton_append]
    · exact fun h _ => hline h
    · exact fun _ _ h _ => hline h

/-- Digits and what may stand behind a value neither go on with a date nor with a time. -/
theorem behind?_append {mark : Char} (hmark : mark = '-' ∨ mark = ':') :
    behind? mark (ds ++ rest) = none := by
  have hne : ∀ c, (ds ++ rest).head? = some c → c ≠ mark := by
    intro c hc
    cases ds with
    | nil => rcases hrest c hc with rfl | rfl | rfl | rfl <;> rcases hmark with rfl | rfl <;> decide
    | cons d ds =>
      obtain rfl := Option.some.inj hc
      rcases hmark with rfl | rfl <;> exact Json.ne_of_isDigit (hds d List.mem_cons_self) rfl
  cases h : ds ++ rest with
  | nil => rfl
  | cons c cs => rw [behind?, if_neg (hne c (by rw [h]; rfl))]

theorem fixed?_append {width low high k : Nat}
    (h : fixed? width low high (ds ++ rest) = some (k, cs)) : cs = ds.drop width ++ rest := by
  have hstop : ∀ c, (rest.take (width - ds.length)).head? = some c → c.isDigit = false := by
    intro c hc
    rw [List.head?_take] at hc
    split_ifs at hc
    exact hrest.not_isDigit c hc
  have hused : ((ds ++ rest).take width).takeWhile Char.isDigit = ds.take width := by
    rw [List.take_append, Text.takeWhile_isDigit_append
      (fun d hd => hds d (List.mem_of_mem_take hd)) hstop]
  have hdrop : (ds ++ rest).drop (ds.take width).length = ds.drop width ++ rest := by
    rcases Nat.le_total width ds.length with hle | hle
    · rw [List.length_take_of_le hle, List.drop_append_of_le_length hle]
    · rw [List.take_of_length_le hle, List.drop_left, List.drop_of_length_le hle, List.nil_append]
  simp only [fixed?, Text.number?, hused, hdrop, ↓Json.bind_eq_some_iff] at h
  obtain ⟨⟨m, tail⟩, hnumber, h⟩ := h
  simp only [Option.ite_none_left_eq_some, Option.ite_none_right_eq_some, Option.some.injEq,
    Prod.mk.injEq] at hnumber h
  rw [← h.2.2, ← hnumber.2.2]

/-- A number is no date and no time. -/
theorem moment?_append : moment? (ds ++ rest) = none := by
  -- Dates and times go on with a mark behind the digits of their first part.
  have hpart {width low high k : Nat} {mark : Char} {tail : List Char}
      (hmark : mark = '-' ∨ mark = ':')
      (h : fixed? width low high (ds ++ rest) = some (k, tail)) : behind? mark tail = none := by
    rw [fixed?_append hds hrest h]
    exact behind?_append (fun d hd => hds d (List.mem_of_mem_drop hd)) hrest hmark
  have hdate : date? (ds ++ rest) = none := by
    rw [Option.eq_none_iff_forall_ne_some]
    intro cs h
    simp only [date?, ↓Json.bind_eq_some_iff] at h
    obtain ⟨⟨year, tail⟩, hyear, h⟩ := h
    simp [hpart (.inl rfl) hyear] at h
  have htime : time? (ds ++ rest) = none := by
    rw [Option.eq_none_iff_forall_ne_some]
    intro cs h
    simp only [time?, ↓Json.bind_eq_some_iff] at h
    obtain ⟨⟨hour, tail⟩, hhour, h⟩ := h
    simp [hpart (.inr rfl) hhour] at h
  rw [moment?, momentEnd?, hdate, htime]
  rfl

end Numbers

section Naturals

theorem signOf_digits (k : Nat) :
    signOf (Nat.toDigits 10 k ++ rest) = (false, Nat.toDigits 10 k ++ rest) := by
  obtain ⟨d, ds, hdigits, hd⟩ := Text.exists_digits_cons k
  rw [hdigits, List.cons_append, signOf]
  · exact fun _ h => Json.ne_of_isDigit hd rfl (List.cons.inj h).1
  · exact fun _ h => Json.ne_of_isDigit hd rfl (List.cons.inj h).1

variable (hrest : Json.Follows rest) (k : Nat)
include hrest

theorem wholeDigits?_digits : wholeDigits? (Nat.toDigits 10 k ++ rest) = some
    (Nat.toDigits 10 k, rest) := by
  by_cases hk : k = 0
  · subst hk
    rfl
  · obtain ⟨d, ds, hdigits, hd⟩ := Text.exists_digits_cons k
    have hzero : d ≠ '0' := by
      have hhead := Text.head?_digits_ne_zero hk
      rw [hdigits] at hhead
      exact fun h => hhead (congrArg some h)
    have hds : ∀ d ∈ ds, d.isDigit = true := fun d hd =>
      Text.isDigit_of_mem_digits (n := k) (hdigits ▸ List.mem_cons_of_mem _ hd)
    rw [hdigits, List.cons_append, wholeDigits?, digits?, if_pos hd, digitTail_append hds hrest]
    · rfl
    · exact fun _ h => hzero (List.cons.inj h).1

/-- A natural number is no real number. -/
theorem real?_digits : real? (Nat.toDigits 10 k ++ rest) = none := by
  have hexponent : exponent? rest = none := by
    cases rest with
    | nil => rfl
    | cons c rest => rcases hrest c rfl with rfl | rfl | rfl | rfl <;> rfl
  have hdecimal : decimal? (Nat.toDigits 10 k ++ rest) = none := by
    simp only [decimal?, signOf_digits, wholeDigits?_digits hrest, Option.bind_eq_bind,
      Option.bind_some]
    split
    · rename_i hpoint
      rcases hrest '.' rfl with h | h | h | h <;> cases h
    · rw [hexponent]
      rfl
  obtain ⟨d, ds, hdigits, hd⟩ := Text.exists_digits_cons k
  have hi : d ≠ 'i' := Json.ne_of_isDigit hd rfl
  have hn : d ≠ 'n' := Json.ne_of_isDigit hd rfl
  rw [real?, hdecimal, signOf_digits, hdigits]
  simp [hi, hn]

/-- The mark of another base does not stand behind a zero. -/
theorem digits_ne_based {mark : Char} (hdigit : mark.isDigit = false)
    (hmark : mark ∉ [',', ']', '\x7d', '\n']) (more : List Char) :
    Nat.toDigits 10 k ++ rest ≠ '0' :: mark :: more := by
  obtain ⟨d, ds, hdigits, hd⟩ := Text.exists_digits_cons k
  rw [hdigits, List.cons_append]
  intro h
  have htail : ds ++ rest = mark :: more := (List.cons.inj h).2
  cases ds with
  | nil =>
    rw [List.nil_append] at htail
    have hfollows := hrest mark (by rw [htail]; rfl)
    simp at hmark
    tauto
  | cons e ds =>
    have he : e ∈ Nat.toDigits 10 k := by simp [hdigits]
    exact Json.ne_of_isDigit (Text.isDigit_of_mem_digits he) hdigit (List.cons.inj htail).1

theorem integer?_digits (hk : k < 9223372036854775808) :
    integer? (Nat.toDigits 10 k ++ rest) = some (.integer k, rest) := by
  have hbound : bounded? false (Text.natOf (Nat.toDigits 10 k)) = some (k : Int) := by
    rw [Text.natOf_digits, bounded?]
    exact if_pos ⟨by omega, by omega⟩
  rw [integer?]
  · rw [signOf_digits, Json.bind_eq_some_iff]
    refine ⟨_, wholeDigits?_digits hrest k, ?_⟩
    rw [Json.bind_eq_some_iff]
    exact ⟨_, hbound, rfl⟩
  · exact digits_ne_based hrest k rfl (by decide)
  · exact digits_ne_based hrest k rfl (by decide)
  · exact digits_ne_based hrest k rfl (by decide)

end Naturals

/-- A number that fits into 64 bits with a sign is read back. -/
theorem standsFor_number {k : Nat} (hk : k < 9223372036854775808) :
    StandsFor (toString k) (.integer k) := by
  intro n rest hrest
  have hlist : (toString k).toList = Nat.toDigits 10 k := by simp [Nat.toString_eq_repr, Nat.repr]
  have hmoment := moment?_append (fun _ => Text.isDigit_of_mem_digits (n := k)) hrest
  have hreal := real?_digits hrest k
  have hinteger := integer?_digits hrest k hk
  obtain ⟨d, ds, hdigits, hd⟩ := Text.exists_digits_cons k
  have hne {c : Char} (hc : c.isDigit = false) : d ≠ c := Json.ne_of_isDigit hd hc
  have hspace : isSpace d = false := by simp [isSpace, hne]
  rw [hlist]
  rw [hdigits, List.cons_append] at hmoment hreal hinteger ⊢
  rw [skipSpace_of_head hspace, value?, scalar?, hmoment, hreal, hinteger]
  · rfl
  all_goals exact fun _ h => hne rfl (List.cons.inj h).1

end AspAtlas.Toml
