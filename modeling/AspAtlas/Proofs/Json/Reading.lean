import AspAtlas.Json.Parser
import AspAtlas.Json.Printer
import AspAtlas.Proofs.Text.Decimal
/-!
Reading what was written. The text of a value is read back as that value in either layout, whatever
may follow it inside a list or an object.
-/
namespace AspAtlas.Json

variable {layout : Layout} {depth n m : Nat} {done rest : List Char}

-- The walks of the reader and the writer are opened in every proof below.
attribute [local simp] stringTail number? itemsOf membersOf value? write writeItems writeMembers

theorem hexValue?_hexDigit {n : Nat} (h : n < 16) : hexValue? (hexDigit n) = some n := by
  revert n
  decide

/-- A control character is read back from its four digits. -/
theorem hexUnit?_control {n : Nat} (h : n < 32) :
    hexUnit? '0' '0' (hexDigit (n / 16)) (hexDigit (n % 16)) = some n := by
  have hhigh : hexValue? (hexDigit (n / 16)) = some (n / 16) := hexValue?_hexDigit (by omega)
  have hlow : hexValue? (hexDigit (n % 16)) = some (n % 16) := hexValue?_hexDigit (by omega)
  have hzero : hexValue? '0' = some 0 := by decide
  simp only [hexUnit?, hhigh, hlow, hzero, Option.bind_eq_bind, Option.bind_some, Option.some.injEq]
  omega

theorem stringTail_short {c e : Char} (hu : c ≠ 'u') (h : shortEscape? c = some e) :
    stringTail done ('\\' :: c :: rest) = stringTail (e :: done) rest := by
  simp [hu, h]

theorem stringTail_control {c : Char} (hc : c.toNat < 32) :
    stringTail done ('\\' :: 'u' :: '0' :: '0' :: hexDigit (c.toNat / 16) ::
      hexDigit (c.toNat % 16) :: rest) = stringTail (c :: done) rest := by
  rw [stringTail, hexUnit?_control hc]
  simp only
  rw [if_neg (by omega), if_neg (by omega), Char.ofNat_toNat]

theorem stringTail_plain {c : Char} (hquote : c ≠ '"') (hslash : c ≠ '\\') (hc : ¬ c.toNat < 32) :
    stringTail done (c :: rest) = stringTail (c :: done) rest := by
  simp [hslash, hc]

theorem stringTail_escapeChar (c : Char) :
    stringTail done (escapeChar c ++ rest) = stringTail (c :: done) rest := by
  have hnumber {n : Nat} (h : c.toNat = n) : c = Char.ofNat n := by rw [← h, Char.ofNat_toNat]
  simp only [escapeChar]
  split_ifs with hquote hslash hfeed hreturn htab hback hform hcontrol
  · subst hquote
    exact stringTail_short (by decide) rfl
  · subst hslash
    exact stringTail_short (by decide) rfl
  · subst hfeed
    exact stringTail_short (by decide) rfl
  · subst hreturn
    exact stringTail_short (by decide) rfl
  · subst htab
    exact stringTail_short (by decide) rfl
  · rw [hnumber hback]
    exact stringTail_short (by decide) rfl
  · rw [hnumber hform]
    exact stringTail_short (by decide) rfl
  · exact stringTail_control hcontrol
  · exact stringTail_plain hquote hslash hcontrol

/-- A quoted text is read up to its closing quote. -/
theorem stringTail_quoted (cs : List Char) :
    stringTail done (cs.flatMap escapeChar ++ '"' :: rest) = some (done.reverse ++ cs, rest) := by
  induction cs generalizing done with
  | nil => simp
  | cons c cs ih =>
    rw [List.flatMap_cons, List.append_assoc, stringTail_escapeChar, ih, List.reverse_cons,
      List.append_assoc, List.singleton_append]

theorem string?_quoted (text : String) :
    string? (text.toList.flatMap escapeChar ++ '"' :: rest) = some (some text, rest) := by
  simp [string?, stringTail_quoted]

/-- What can be read can be passed over. -/
theorem behindString?_of_stringTail {cs text : List Char}
    (h : stringTail done cs = some (text, rest)) : behindString? cs = some rest := by
  fun_induction stringTail done cs <;> simp_all [behindString?]

/-- Where a text ends does not depend on whether it stands for characters. -/
theorem string?_map_snd (cs : List Char) : (string? cs).map Prod.snd = behindString? cs := by
  rw [string?]
  cases h : stringTail [] cs with
  | none => simp [Function.comp_def]
  | some found => simp [behindString?_of_stringTail h]

/-- What may stand behind a value: nothing, a comma, a closing bracket or a line break. -/
def Follows (rest : List Char) : Prop :=
  ∀ c, rest.head? = some c → c = ',' ∨ c = ']' ∨ c = '\x7d' ∨ c = '\n'

theorem Follows.not_isDigit (h : Follows rest) : ∀ c, rest.head? = some c → c.isDigit = false := by
  intro c hc
  rcases h c hc with rfl | rfl | rfl | rfl <;> rfl

theorem Follows.fraction? (h : Follows rest) : fraction? rest = some ([], rest) := by
  cases rest with
  | nil => rfl
  | cons c rest => rcases h c rfl with rfl | rfl | rfl | rfl <;> rfl

theorem Follows.exponent? (h : Follows rest) : exponent? rest = some ([], rest) := by
  cases rest with
  | nil => rfl
  | cons c rest => rcases h c rfl with rfl | rfl | rfl | rfl <;> rfl

theorem digits?_append (h : Follows rest) (n : Nat) :
    digits? (Nat.toDigits 10 n ++ rest) = some (Nat.toDigits 10 n, rest) := by
  have htake : (Nat.toDigits 10 n ++ rest).takeWhile Char.isDigit = Nat.toDigits 10 n :=
    Text.takeWhile_isDigit_append (fun _ => Text.isDigit_of_mem_digits) h.not_isDigit
  have hsome : (Nat.toDigits 10 n).isEmpty = false := by
    rw [List.isEmpty_eq_false_iff]
    exact Nat.toDigits_ne_nil
  simp only [digits?, htake, hsome, Bool.false_eq_true, if_false, List.drop_left]

/-- No number that was written starts with a zero in vain. -/
theorem not_padded (n : Nat) :
    ((Nat.toDigits 10 n).length > 1 && (Nat.toDigits 10 n).head? == some '0') = false := by
  by_cases hn : n = 0
  · subst hn
    rfl
  · have hhead := Text.head?_digits_ne_zero hn
    simp [hhead]

theorem toList_toString (value : Int) : (toString value).toList =
    (if value < 0 then ['-'] else []) ++ Nat.toDigits 10 value.natAbs := by
  cases value <;> simp [Int.toString_eq_repr, Int.repr]

theorem number?_digits (h : Follows rest) (k : Nat) :
    number? (Nat.toDigits 10 k ++ rest) = some (int k, rest) := by
  obtain ⟨c, cs, hdigits, hc⟩ := Text.exists_digits_cons k
  have hminus : c ≠ '-' := by
    rintro rfl
    cases hc
  have hbody : digits? (c :: (cs ++ rest)) = some (Nat.toDigits 10 k, rest) := by
    rw [← List.cons_append, ← hdigits, digits?_append h]
  rw [hdigits, List.cons_append]
  simp only [number?]
  split
  · rename_i hsign
    exact absurd (List.cons.inj hsign).1 hminus
  · simp only [hbody, not_padded, h.fraction?, h.exponent?, Text.natOf_digits, Option.bind_eq_bind,
      Option.bind_some, Bool.false_eq_true, if_false]
    simp

theorem number?_minus (h : Follows rest) {k : Nat} (hk : k ≠ 0) :
    number? ('-' :: (Nat.toDigits 10 k ++ rest)) = some (int (-k), rest) := by
  simp only [number?, digits?_append h, not_padded, h.fraction?, h.exponent?, Text.natOf_digits,
    Option.bind_eq_bind, Option.bind_some, Bool.false_eq_true, if_false]
  simp [hk]

theorem number?_toString (h : Follows rest) (value : Int) :
    number? ((toString value).toList ++ rest) = some (int value, rest) := by
  rw [toList_toString]
  by_cases hneg : value < 0
  · have hvalue : -(value.natAbs : Int) = value := by omega
    have hne : value.natAbs ≠ 0 := by omega
    rw [if_pos hneg, List.singleton_append, List.cons_append, number?_minus h hne, hvalue]
  · have hvalue : (value.natAbs : Int) = value := by omega
    rw [if_neg hneg, List.nil_append, number?_digits h, hvalue]

/-- A written number starts with a minus sign or a digit. -/
theorem exists_toString_cons (value : Int) :
    ∃ c cs, (toString value).toList = c :: cs ∧ (c = '-' ∨ c.isDigit = true) := by
  rw [toList_toString]
  by_cases hneg : value < 0
  · rw [if_pos hneg]
    exact ⟨'-', _, rfl, .inl rfl⟩
  · rw [if_neg hneg, List.nil_append]
    obtain ⟨c, cs, hdigits, hc⟩ := Text.exists_digits_cons value.natAbs
    exact ⟨c, cs, hdigits, .inr hc⟩

theorem ne_of_isDigit {c d : Char} (hc : c.isDigit = true) (hd : d.isDigit = false) : c ≠ d := by
  rintro rfl
  rw [hc] at hd
  cases hd

/-- A value in which every number is an integer; these are written so
that they can be told apart. -/
inductive Plain : Json → Prop
  | null : Plain null
  | bool (value : Bool) : Plain (bool value)
  | int (value : Int) : Plain (int value)
  | str (text : String) : Plain (str text)
  | arr {items : List Json} (h : ∀ j ∈ items, Plain j) : Plain (arr items)
  | obj {members : List (String × Json)} (h : ∀ x ∈ members, Plain x.2) : Plain (obj members)

theorem skip_of_head (h : ∀ c, rest.head? = some c → isSpace c = false) : skip rest = rest := by
  cases rest with
  | nil => rfl
  | cons c rest => simp [skip, h c rfl]

theorem skip_append (hdone : ∀ c ∈ done, isSpace c = true) : skip (done ++ rest) = skip rest :=
  List.dropWhile_append_of_pos hdone

theorem isSpace_of_mem_break {c : Char} (h : c ∈ (layout.break depth).toList) :
    isSpace c = true := by
  cases layout with
  | compact => simp [Layout.break] at h
  | pretty =>
    simp only [Layout.break, String.toList_append, String.toList_ofList, List.mem_append,
      List.mem_replicate] at h
    rcases h with h | ⟨-, rfl⟩
    · rw [show "\n".toList = ['\n'] from rfl, List.mem_singleton] at h
      subst h
      rfl
    · rfl

theorem skip_break : skip ((layout.break depth).toList ++ rest) = skip rest :=
  skip_append fun _ => isSpace_of_mem_break

theorem follows_break {c : Char} (hc : c = ']' ∨ c = '\x7d') :
    Follows ((layout.break depth).toList ++ c :: rest) := by
  intro d hd
  cases layout with
  | compact =>
    obtain rfl : c = d := Option.some.inj hd
    rcases hc with rfl | rfl <;> simp
  | pretty =>
    simp only [Layout.break, String.toList_append, List.append_assoc, List.head?_append] at hd
    obtain rfl : '\n' = d := Option.some.inj hd
    simp

section Texts

variable (layout depth)

theorem toList_write_int (value : Int) :
    (write layout depth (int value)).toList = (toString value).toList := by rw [write]

theorem toList_write_str (text : String) :
    (write layout depth (str text)).toList = '"' :: (text.toList.flatMap escapeChar ++ ['"']) := by
  simp [quoted, quotedChars]

theorem toList_writeItems_cons (item : Json) (more : List Json) :
    (writeItems layout depth (item :: more)).toList = ',' :: ((layout.break depth).toList ++
      ((write layout depth item).toList ++ (writeItems layout depth more).toList)) := by
  simp

theorem toList_writeMembers_cons (key : String) (item : Json) (more : List (String × Json)) :
    (writeMembers layout depth ((key, item) :: more)).toList = ',' ::
    ((layout.break depth).toList ++
      '"' :: (key.toList.flatMap escapeChar ++ '"' :: (layout.colon.toList ++
        ((write layout depth item).toList ++ (writeMembers layout depth more).toList)))) := by
  simp [quoted, quotedChars]

/-- Between its brackets a list has its items, without the comma in front of the first. -/
theorem toList_write_arr {items : List Json} {body : List Char}
    (h : (writeItems layout (depth + 1) items).toList = ',' :: body) :
    (write layout depth (arr items)).toList = '[' ::
    (body ++ ((layout.break depth).toList ++ [']'])) := by
  cases items with
  | nil => simp at h
  | cons item more =>
    rw [toList_writeItems_cons, List.cons.injEq] at h
    simp [← h.2]

/-- Between its braces an object has its members, without the comma in front of the first. -/
theorem toList_write_obj {members : List (String × Json)} {body : List Char}
    (h : (writeMembers layout (depth + 1) members).toList = ',' :: body) :
    (write layout depth (obj members)).toList =
      '\x7b' :: (body ++ ((layout.break depth).toList ++ ['\x7d'])) := by
  cases members with
  | nil => simp at h
  | cons first more =>
    obtain ⟨key, item⟩ := first
    rw [toList_writeMembers_cons, List.cons.injEq] at h
    simp [quoted, quotedChars, ← h.2]

/-- A written value starts with a character that is neither blank nor closes a list. -/
theorem exists_write_cons {j : Json} (h : Plain j) :
    ∃ c cs, (write layout depth j).toList = c :: cs ∧ isSpace c = false ∧ c ≠ ']' := by
  cases h with
  | null => exact ⟨'n', ['u', 'l', 'l'], by simp, by decide, by decide⟩
  | bool value =>
    cases value with
    | true => exact ⟨'t', ['r', 'u', 'e'], by simp, by decide, by decide⟩
    | false => exact ⟨'f', ['a', 'l', 's', 'e'], by simp, by decide, by decide⟩
  | int value =>
    obtain ⟨c, cs, hlist, hc⟩ := exists_toString_cons value
    refine ⟨c, cs, (toList_write_int layout depth value).trans hlist, ?_⟩
    rcases hc with rfl | hc
    · decide
    · have hne {d : Char} (hd : d.isDigit = false) : c ≠ d := ne_of_isDigit hc hd
      simp [isSpace, hne]
  | str text => exact ⟨'"', _, toList_write_str layout depth text, by decide, by decide⟩
  | @arr items _ =>
    cases items with
    | nil => exact ⟨'[', [']'], by simp, by decide, by decide⟩
    | cons item more =>
      exact ⟨'[', _, toList_write_arr layout depth
        (toList_writeItems_cons _ _ item more), by decide, by decide⟩
  | @obj members _ =>
    cases members with
    | nil => exact ⟨'\x7b', ['\x7d'], by simp, by decide, by decide⟩
    | cons first more =>
      exact ⟨'\x7b', _, toList_write_obj layout depth
        (toList_writeMembers_cons _ _ first.1 first.2 more), by decide, by decide⟩

end Texts

theorem skip_write {j : Json} (h : Plain j) :
    skip ((write layout depth j).toList ++ rest) = (write layout depth j).toList ++ rest := by
  obtain ⟨c, cs, hlist, hc, -⟩ := exists_write_cons layout depth h
  rw [hlist]
  exact skip_of_head fun d hd => Option.some.inj hd ▸ hc

/-- A reader of values reads back how `j` was written at a depth, whatever may follow it. -/
def ReadsBack (read? : List Char → Option (Json × List Char)) (layout : Layout) (depth : Nat)
    (j : Json) : Prop :=
  ∀ rest, Follows rest → read? ((write layout depth j).toList ++ rest) = some (j, rest)

section Rows

variable {read? : List Char → Option (Json × List Char)} {body : List Char}

theorem follows_writeItems (items : List Json) :
    Follows ((writeItems layout depth items).toList ++
      ((layout.break n).toList ++ ']' :: rest)) := by
  cases items with
  | nil => simpa using follows_break (.inl rfl)
  | cons item more =>
    intro c hc
    rw [toList_writeItems_cons, List.cons_append, List.head?_cons, Option.some.injEq] at hc
    exact .inl hc.symm

theorem follows_writeMembers (members : List (String × Json)) :
    Follows ((writeMembers layout depth members).toList ++
      ((layout.break n).toList ++ '\x7d' :: rest)) := by
  cases members with
  | nil => simpa using follows_break (.inr rfl)
  | cons first more =>
    intro c hc
    rw [toList_writeMembers_cons, List.cons_append, List.head?_cons, Option.some.injEq] at hc
    exact .inl hc.symm

/-- Items are read up to the closing bracket, from behind the comma in front of the first. -/
theorem itemsOf_writeItems {items found : List Json}
    (hitems : ∀ j ∈ items, Plain j ∧ ReadsBack read? layout depth j) (hm : items.length ≤ m)
    (hbody : (writeItems layout depth items).toList = ',' :: body) :
    itemsOf read? m found (body ++ ((layout.break n).toList ++ ']' :: rest)) =
      some (arr (found.reverse ++ items), rest) := by
  induction items generalizing m found body with
  | nil => simp at hbody
  | cons j more ih =>
    obtain ⟨⟨hplain, hfirst⟩, hlater⟩ := List.forall_mem_cons.mp hitems
    obtain ⟨k, rfl⟩ : ∃ k, m = k + 1 := ⟨m - 1, by rw [List.length_cons] at hm; omega⟩
    rw [toList_writeItems_cons, List.cons.injEq] at hbody
    obtain ⟨-, rfl⟩ := hbody
    rw [List.append_assoc, List.append_assoc, itemsOf, skip_break, skip_write hplain,
      hfirst _ (follows_writeItems more)]
    cases more with
    | nil =>
      have hclose : skip ((layout.break n).toList ++ ']' :: rest) = ']' :: rest := skip_break
      simp [hclose]
    | cons next more =>
      obtain ⟨tail, htail⟩ : ∃ tail, (writeItems layout depth (next :: more)).toList =
        ',' :: tail :=
        ⟨_, toList_writeItems_cons layout depth next more⟩
      have hcomma (cs : List Char) : skip (',' :: cs) = ',' :: cs := rfl
      simp only [htail, List.cons_append, hcomma]
      rw [ih hlater (Nat.le_of_succ_le_succ hm) htail, List.reverse_cons, List.append_assoc,
        List.singleton_append]

theorem skip_colon (layout : Layout) : ∃ blanks : List Char, layout.colon.toList = ':' :: blanks ∧
    ∀ c ∈ blanks, isSpace c = true := by
  cases layout with
  | compact => exact ⟨[], rfl, by simp⟩
  | pretty => exact ⟨[' '], rfl, by simp [isSpace]⟩

/-- Members are read up to the closing brace, from behind the comma in front of the first. -/
theorem membersOf_writeMembers {members found : List (String × Json)}
    (hmembers : ∀ x ∈ members, Plain x.2 ∧ ReadsBack read? layout depth x.2)
    (hm : members.length ≤ m) (hbody : (writeMembers layout depth members).toList = ',' :: body) :
    membersOf read? m (some found) (body ++ ((layout.break n).toList ++ '\x7d' :: rest)) =
      some (obj (found.reverse ++ members), rest) := by
  induction members generalizing m found body with
  | nil => simp at hbody
  | cons first more ih =>
    obtain ⟨⟨hplain, hfirst⟩, hlater⟩ := List.forall_mem_cons.mp hmembers
    obtain ⟨key, j⟩ := first
    obtain ⟨k, rfl⟩ : ∃ k, m = k + 1 := ⟨m - 1, by rw [List.length_cons] at hm; omega⟩
    rw [toList_writeMembers_cons, List.cons.injEq] at hbody
    obtain ⟨-, rfl⟩ := hbody
    obtain ⟨blanks, hcolon, hblanks⟩ := skip_colon layout
    have hquote (cs : List Char) : skip ('"' :: cs) = '"' :: cs := rfl
    have hcolons (cs : List Char) : skip (':' :: cs) = ':' :: cs := rfl
    rw [List.append_assoc, membersOf, skip_break]
    simp only [List.cons_append, List.append_assoc, hquote, string?_quoted, hcolon, hcolons,
      skip_append hblanks, skip_write hplain, hfirst _ (follows_writeMembers more),
        Option.bind_some,
      Option.map_some]
    cases more with
    | nil =>
      have hclose : skip ((layout.break n).toList ++ '\x7d' :: rest) = '\x7d' :: rest := skip_break
      simp [hclose]
    | cons next more =>
      obtain ⟨tail, htail⟩ :
          ∃ tail, (writeMembers layout depth (next :: more)).toList = ',' :: tail :=
        ⟨_, toList_writeMembers_cons layout depth next.1 next.2 more⟩
      have hcomma (cs : List Char) : skip (',' :: cs) = ',' :: cs := rfl
      simp only [htail, List.cons_append, hcomma]
      rw [ih hlater (Nat.le_of_succ_le_succ hm) htail, List.reverse_cons, List.append_assoc,
        List.singleton_append]

theorem skip_items_ne {j : Json} {more : List Json} (h : Plain j)
    (hbody : (writeItems layout depth (j :: more)).toList = ',' :: body) (cs : List Char) :
    skip (body ++ rest) ≠ ']' :: cs := by
  obtain ⟨c, text, hwrite, -, hc⟩ := exists_write_cons layout depth h
  rw [toList_writeItems_cons, List.cons.injEq] at hbody
  rw [← hbody.2, List.append_assoc, List.append_assoc, skip_break, skip_write h, hwrite]
  intro hclose
  exact hc (List.cons.inj hclose).1

theorem skip_members_ne {first : String × Json} {more : List (String × Json)}
    (hbody : (writeMembers layout depth (first :: more)).toList = ',' :: body) (cs : List Char) :
    skip (body ++ rest) ≠ '\x7d' :: cs := by
  rw [toList_writeMembers_cons layout depth first.1 first.2 more, List.cons.injEq] at hbody
  rw [← hbody.2, List.append_assoc, skip_break]
  intro hclose
  have hquote : '"' = '\x7d' := (List.cons.inj hclose).1
  exact absurd hquote (by decide)

theorem length_le_writeItems (layout : Layout) (depth : Nat) (items : List Json) :
    items.length ≤ (writeItems layout depth items).toList.length ∧
      ∀ j ∈ items, (write layout depth j).toList.length <
        (writeItems layout depth items).toList.length := by
  induction items with
  | nil => simp
  | cons j more ih =>
    obtain ⟨hcount, hmore⟩ := ih
    simp only [toList_writeItems_cons, List.length_cons, List.length_append, List.forall_mem_cons]
    refine ⟨by omega, by omega, fun i hi => ?_⟩
    have hi := hmore i hi
    omega

theorem length_le_writeMembers (layout : Layout) (depth : Nat) (members : List (String × Json)) :
    members.length ≤ (writeMembers layout depth members).toList.length ∧
      ∀ x ∈ members, (write layout depth x.2).toList.length <
        (writeMembers layout depth members).toList.length := by
  induction members with
  | nil => simp
  | cons first more ih =>
    obtain ⟨hcount, hmore⟩ := ih
    obtain ⟨key, j⟩ := first
    simp only [toList_writeMembers_cons, List.length_cons, List.length_append, List.forall_mem_cons]
    refine ⟨by omega, by omega, fun x hx => ?_⟩
    have hx := hmore x hx
    omega

end Rows

/-- A word is not what a text with another first character starts with. -/
theorem word?_of_ne {c d : Char} {word cs : List Char} {value : Json} (h : c ≠ d) :
    word? (String.ofList (c :: word)) value (d :: cs) = none := by
  simp [word?, List.isPrefixOf, h]

theorem value?_toString (hrest : Follows rest) (k : Nat) (value : Int) :
    value? (k + 1) ((toString value).toList ++ rest) = some (int value, rest) := by
  obtain ⟨c, cs, hlist, hc⟩ := exists_toString_cons value
  have hnumber := number?_toString hrest value
  have hother {d : Char} (hd : d.isDigit = false) (hminus : d ≠ '-') : d ≠ c := by
    rcases hc with rfl | hc
    · exact hminus
    · exact (ne_of_isDigit hc hd).symm
  rw [hlist, List.cons_append] at hnumber ⊢
  have hnull : word? "null" null (c :: (cs ++ rest)) = none :=
    word?_of_ne (hother (by decide) (by decide))
  have htrue : word? "true" (bool true) (c :: (cs ++ rest)) = none :=
    word?_of_ne (hother (by decide) (by decide))
  have hfalse : word? "false" (bool false) (c :: (cs ++ rest)) = none :=
    word?_of_ne (hother (by decide) (by decide))
  rw [value?]
  · rw [hnull, htrue, hfalse, hnumber]
    rfl
  · exact (List.cons_ne_nil _ _)
  · intro _ h
    exact hother (d := '"') (by decide) (by decide) (List.cons.inj h).1.symm
  · intro _ h
    exact hother (d := '[') (by decide) (by decide) (List.cons.inj h).1.symm
  · intro _ h
    exact hother (d := '\x7b') (by decide) (by decide) (List.cons.inj h).1.symm

/-- Behind an opening bracket items are read, unless it is closed at once. -/
theorem value?_arr (h : ∀ cs, skip rest ≠ ']' :: cs) :
    value? (n + 1) ('[' :: rest) = itemsOf (value? n) n [] rest := by
  rw [value?]
  split
  · rename_i hskip
    exact absurd hskip (h _)
  · rfl

/-- Behind an opening brace members are read, unless it is closed at once. -/
theorem value?_obj (h : ∀ cs, skip rest ≠ '\x7d' :: cs) :
    value? (n + 1) ('\x7b' :: rest) = membersOf (value? n) n (some []) rest := by
  rw [value?]
  split
  · rename_i hskip
    exact absurd hskip (h _)
  · rfl

/-- A list is read back when its items are, each of which has a shorter text. -/
theorem readsBack_arr {items : List Json} (hplain : ∀ j ∈ items, Plain j)
    (hitems : ∀ j ∈ items, ∀ m, (write layout (depth + 1) j).toList.length ≤ m →
      ReadsBack (value? (m + 1)) layout (depth + 1) j)
    (hn : (write layout depth (arr items)).toList.length ≤ n) :
    ReadsBack (value? (n + 1)) layout depth (arr items) := by
  intro rest _
  cases items with
  | nil => simp [skip, isSpace]
  | cons item more =>
    obtain ⟨body, hbody⟩ :
        ∃ body, (writeItems layout (depth + 1) (item :: more)).toList = ',' :: body :=
      ⟨_, toList_writeItems_cons layout (depth + 1) item more⟩
    obtain ⟨hcount, hshort⟩ := length_le_writeItems layout (depth + 1) (item :: more)
    rw [toList_write_arr layout depth hbody] at hn ⊢
    rw [hbody] at hcount hshort
    simp only [List.length_cons, List.length_append] at hn hcount hshort
    obtain ⟨m, rfl⟩ : ∃ m, n = m + 1 := ⟨n - 1, by omega⟩
    have hback : ∀ j ∈ item :: more,
        Plain j ∧ ReadsBack (value? (m + 1)) layout (depth + 1) j := by
      intro j hj
      have hlength := hshort j hj
      exact ⟨hplain j hj, hitems j hj m (by omega)⟩
    rw [List.cons_append, List.append_assoc, List.append_assoc, List.singleton_append,
      value?_arr (skip_items_ne (hplain item List.mem_cons_self) hbody),
      itemsOf_writeItems hback (by rw [List.length_cons]; omega) hbody]
    rfl

/-- An object is read back when its members are, each of which has a shorter text. -/
theorem readsBack_obj {members : List (String × Json)} (hplain : ∀ x ∈ members, Plain x.2)
    (hmembers : ∀ x ∈ members, ∀ m, (write layout (depth + 1) x.2).toList.length ≤ m →
      ReadsBack (value? (m + 1)) layout (depth + 1) x.2)
    (hn : (write layout depth (obj members)).toList.length ≤ n) :
    ReadsBack (value? (n + 1)) layout depth (obj members) := by
  intro rest _
  cases members with
  | nil => simp [skip, isSpace]
  | cons first more =>
    obtain ⟨body, hbody⟩ :
        ∃ body, (writeMembers layout (depth + 1) (first :: more)).toList = ',' :: body :=
      ⟨_, toList_writeMembers_cons layout (depth + 1) first.1 first.2 more⟩
    obtain ⟨hcount, hshort⟩ := length_le_writeMembers layout (depth + 1) (first :: more)
    rw [toList_write_obj layout depth hbody] at hn ⊢
    rw [hbody] at hcount hshort
    simp only [List.length_cons, List.length_append] at hn hcount hshort
    obtain ⟨m, rfl⟩ : ∃ m, n = m + 1 := ⟨n - 1, by omega⟩
    have hback : ∀ x ∈ first :: more,
        Plain x.2 ∧ ReadsBack (value? (m + 1)) layout (depth + 1) x.2 := by
      intro x hx
      have hlength := hshort x hx
      exact ⟨hplain x hx, hmembers x hx m (by omega)⟩
    rw [List.cons_append, List.append_assoc, List.append_assoc, List.singleton_append,
      value?_obj (skip_members_ne hbody),
      membersOf_writeMembers hback (by rw [List.length_cons]; omega) hbody]
    rfl

/-- What was written is read back as the same value, given one step more than its text is long. -/
theorem value?_write {j : Json} (h : Plain j) (hn : (write layout depth j).toList.length ≤ n) :
    ReadsBack (value? (n + 1)) layout depth j := by
  induction h generalizing depth n with
  | null =>
    intro rest _
    simp [word?, List.isPrefixOf]
  | bool value =>
    intro rest _
    cases value <;> simp [word?, List.isPrefixOf]
  | int value =>
    intro rest hrest
    rw [toList_write_int]
    exact value?_toString hrest n value
  | str text =>
    intro rest _
    rw [toList_write_str]
    simp [string?_quoted]
  | arr hplain ih => exact readsBack_arr hplain (fun j hj _ => ih j hj) hn
  | obj hplain ih => exact readsBack_obj hplain (fun x hx _ => ih x hx) hn

/-- Reading gives the value that was written, in either layout. -/
theorem parse?_print {j : Json} (h : Plain j) (layout : Layout) :
    parse? (j.print layout) = some j := by
  have hback : ReadsBack (value? ((write layout 0 j).toList.length + 1)) layout 0 j :=
    value?_write h (Nat.le_refl _)
  have hvalue := hback [] (by simp [Follows])
  have hskip : skip ((write layout 0 j).toList ++ []) = (write layout 0 j).toList ++ [] :=
    skip_write h
  rw [List.append_nil] at hvalue hskip
  simp only [parse?, print, hskip, hvalue]
  rfl

/-- Half a surrogate pair stands for no character, but nothing has to read it. -/
example : (parse? "\x7b\"x\": \"\\ud800\"\x7d").isSome = true := by decide +kernel

end AspAtlas.Json
