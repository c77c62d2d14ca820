import AspAtlas.Proofs.Json.Codec
import AspAtlas.Proofs.Text.Blank
import AspAtlas.Report.Timestamp
/-!
Instants that are written and read. An instant that exists is read back from its text, and only
instants that exist are ever read.
-/
namespace AspAtlas.Timestamp

section Reading

variable {cs rest : List Char} {n width : Nat}

theorem head_padded {c : Char} (h : ((Text.padded width n).toList ++ rest).head? = some c) :
    c.isDigit = true := by
  obtain ⟨d, ds, hlist⟩ := List.exists_cons_of_ne_nil (@Text.padded_ne_nil width n)
  rw [hlist, List.cons_append, List.head?_cons, Option.some.injEq] at h
  subst h
  apply Text.isDigit_of_mem_padded
  rw [hlist]
  exact List.mem_cons_self

theorem trimStart_padded :
    Text.trimStart ((Text.padded width n).toList ++ rest) = (Text.padded width n).toList ++ rest :=
  Text.trimStart_of_head fun _ h => Text.isBlank_of_isDigit (head_padded h)

theorem twoDigits?_padded (h : n < 100) :
    twoDigits? ((Text.padded 2 n).toList ++ rest) = some (n, rest) := by
  rw [twoDigits?, trimStart_padded, Text.number?_padded (by omega) h]

theorem separator?_cons {c : Char} (h : Text.isBlank c = false) :
    separator? c (c :: rest) = some rest := by
  have htrim : Text.trimStart (c :: rest) = c :: rest := by simp [Text.trimStart, h]
  simp [separator?, htrim]

/-- A year is read up to the hyphen behind it. -/
theorem year?_yearText (year : Int) :
    year? ((yearText year).toList ++ '-' :: rest) = some (year, '-' :: rest) := by
  have hall (n : Nat) : Text.number? ((Text.padded 4 n).toList ++ '-' :: rest).length
      ((Text.padded 4 n).toList ++ '-' :: rest) = some (n, '-' :: rest) := by
    have hhyphen : ∀ c, ('-' :: rest).head? = some c → c.isDigit = false := by
      rintro c ⟨⟩
      rfl
    rw [Text.number?_append (fun _ => Text.isDigit_of_mem_padded) Text.padded_ne_nil (by simp)
      (.inr hhyphen), Text.natOf_padded]
  simp only [yearText]
  split_ifs with hfour hneg
  · have hsmall : year.toNat < 10 ^ 4 := by omega
    have hread : Text.number? 4 ((Text.padded 4 year.toNat).toList ++ '-' :: rest) =
        some (year.toNat, '-' :: rest) := Text.number?_padded (by decide) hsmall
    simp only [year?, trimStart_padded]
    split
    · rename_i hsign
      have hdigit : ('-').isDigit = true := head_padded (congrArg List.head? hsign)
      exact absurd hdigit (by decide)
    · rename_i hsign
      have hdigit : ('+').isDigit = true := head_padded (congrArg List.head? hsign)
      exact absurd hdigit (by decide)
    · rw [hread, Option.map_some, Int.toNat_of_nonneg hfour.1]
  · have hvalue : -(year.natAbs : Int) = year := by omega
    have htext : ("-" ++ Text.padded 4 year.natAbs).toList ++ '-' :: rest =
        '-' :: ((Text.padded 4 year.natAbs).toList ++ '-' :: rest) := by simp
    have htrim (cs : List Char) : Text.trimStart ('-' :: cs) = '-' :: cs := rfl
    simp only [year?, htext, htrim, hall, Option.map_some, hvalue]
  · have hvalue : (year.natAbs : Int) = year := by omega
    have htext : ("+" ++ Text.padded 4 year.natAbs).toList ++ '-' :: rest =
        '+' :: ((Text.padded 4 year.natAbs).toList ++ '-' :: rest) := by simp
    have htrim (cs : List Char) : Text.trimStart ('+' :: cs) = '+' :: cs := rfl
    simp only [year?, htext, htrim, hall, Option.map_some, hvalue]

/-- A fraction of some digits counts as many nanoseconds as it would with nine digits. -/
theorem fraction?_padded (hwidth : 0 < width) (hnine : width ≤ 9) (h : n < 10 ^ width) :
    fraction? ('.' :: ((Text.padded width n).toList ++ ['Z'])) =
      some (n * 10 ^ (9 - width), ['Z']) := by
  have hlength : (Text.padded width n).toList.length = width := Text.length_padded hwidth h
  have hstop : ∀ c, ['Z'].head? = some c → c.isDigit = false := by
    rintro c ⟨⟩
    rfl
  have hread : Text.number? 9 ((Text.padded width n).toList ++ ['Z']) = some (n, ['Z']) := by
    rw [Text.number?_append (fun _ => Text.isDigit_of_mem_padded) Text.padded_ne_nil (by omega)
      (.inr hstop), Text.natOf_padded]
  simp [fraction?, hread, hlength]

theorem fraction?_fractionText (h : n < 1000000000) :
    fraction? ((fractionText n).toList ++ ['Z']) = some (n, ['Z']) := by
  simp only [fractionText]
  split_ifs with hzero hmilli hmicro
  · simp [fraction?, hzero]
  · have hread := @fraction?_padded (n / 1000000) 3 (by omega) (by omega) (by omega)
    have hvalue : n / 1000000 * 10 ^ (9 - 3) = n := by omega
    rw [hvalue] at hread
    simpa using hread
  · have hread := @fraction?_padded (n / 1000) 6 (by omega) (by omega) (by omega)
    have hvalue : n / 1000 * 10 ^ (9 - 6) = n := by omega
    rw [hvalue] at hread
    simpa using hread
  · have hread := @fraction?_padded n 9 (by omega) (by omega) (by omega)
    simpa using hread

end Reading

variable {t : Timestamp}

/-- What has to be the case for a date with a time of day to exist. -/
theorem isValid_iff : t.isValid = true ↔ (-262143 ≤ t.year ∧ t.year ≤ 262142) ∧
    1 ≤ t.month ∧ t.month ≤ 12 ∧ 1 ≤ t.day ∧ t.day ≤ daysIn t.year t.month ∧ t.hour < 24 ∧
    t.minute < 60 ∧ t.second ≤ 60 ∧ t.nanosecond < 1000000000 := by
  simp [isValid, isKnownYear]

theorem daysIn_bounds (year : Int) (month : Nat) :
    28 ≤ daysIn year month ∧ daysIn year month ≤ 31 := by
  simp only [daysIn]
  split_ifs <;> omega

/-- Local time is universal time where they do not differ. -/
theorem ofLocal?_zero (h : t.isValid = true) : t.ofLocal? 0 = some t := by
  obtain ⟨hyear, -, -, -, -, hhour, hminute, -, -⟩ := isValid_iff.mp h
  have hearly : ¬ ((t.hour * 60 + t.minute : Nat) - 0 : Int) < 0 := by omega
  have hlate : ¬ 1440 ≤ ((t.hour * 60 + t.minute : Nat) - 0 : Int) := by omega
  have hrest : (((t.hour * 60 + t.minute : Nat) - 0 : Int) % 1440).toNat =
      t.hour * 60 + t.minute := by
    omega
  have hhours : (t.hour * 60 + t.minute) / 60 = t.hour := by omega
  have hminutes : (t.hour * 60 + t.minute) % 60 = t.minute := by omega
  have hknown : isKnownYear t.year = true := by simp [isKnownYear, hyear]
  simp only [ofLocal?, hearly, hlate, if_false, hrest, hhours, hminutes, hknown, if_true]

theorem parse?_print (h : t.isValid = true) : parse? t.print = some t := by
  obtain ⟨-, -, hmonth, -, hday, hhour, hminute, hsecond, hnano⟩ := isValid_iff.mp h
  have hdays := daysIn_bounds t.year t.month
  have htext : t.print.toList = (yearText t.year).toList ++ '-' ::
      ((Text.padded 2 t.month).toList ++
      '-' :: ((Text.padded 2 t.day).toList ++ 'T' :: ((Text.padded 2 t.hour).toList ++
        ':' :: ((Text.padded 2 t.minute).toList ++ ':' :: ((Text.padded 2 t.second).toList ++
          ((fractionText t.nanosecond).toList ++ ['Z'])))))) := by
    simp [print]
  have hhyphen (cs : List Char) : separator? '-' ('-' :: cs) = some cs :=
    separator?_cons (by decide)
  have hcolon (cs : List Char) : separator? ':' (':' :: cs) = some cs := separator?_cons (by decide)
  have hdate (cs : List Char) : dateEnd? ('T' :: cs) = some cs := rfl
  have hzone : offset? (Text.trimStart ['Z']) = some (0, []) := rfl
  have hend : ((Text.trimStart []).isEmpty && t.isValid) = true := by rw [h]; rfl
  simp only [parse?, htext, ↓Json.bind_eq_some_iff]
  exact ⟨_, year?_yearText t.year, _, hhyphen _, _, twoDigits?_padded (by omega), _, hhyphen _, _,
    twoDigits?_padded (by omega), _, hdate _, _, twoDigits?_padded (by omega), _, hcolon _, _,
    twoDigits?_padded (by omega), _, hcolon _, _, twoDigits?_padded (by omega), _,
    fraction?_fractionText hnano, _, hzone, by rw [if_pos hend, ofLocal?_zero h]⟩

theorem dayBefore_exists {year : Int} {month day : Nat} (hmonth : 1 ≤ month ∧ month ≤ 12)
    (hday : 1 ≤ day ∧ day ≤ daysIn year month) {year' : Int} {month' day' : Nat}
    (h : dayBefore year month day = (year', month', day')) :
    (1 ≤ month' ∧ month' ≤ 12) ∧ 1 ≤ day' ∧ day' ≤ daysIn year' month' := by
  simp only [dayBefore] at h
  split_ifs at h with hlater hmonths
  · cases h
    omega
  · cases h
    have hdays := daysIn_bounds year (month - 1)
    omega
  · cases h
    exact ⟨by decide, by decide, by simp [daysIn]⟩

theorem dayAfter_exists {year : Int} {month day : Nat} (hmonth : 1 ≤ month ∧ month ≤ 12)
    {year' : Int} {month' day' : Nat} (h : dayAfter year month day = (year', month', day')) :
    (1 ≤ month' ∧ month' ≤ 12) ∧ 1 ≤ day' ∧ day' ≤ daysIn year' month' := by
  simp only [dayAfter] at h
  split_ifs at h with hlater hmonths
  · cases h
    omega
  · cases h
    have hdays := daysIn_bounds year (month + 1)
    omega
  · cases h
    have hdays := daysIn_bounds (year + 1) 1
    omega

/-- An instant given in local time exists when its local date and time do. -/
theorem isValid_of_ofLocal? {t' : Timestamp} {ahead : Int} (h : t.isValid = true)
    (hlocal : t.ofLocal? ahead = some t') : t'.isValid = true := by
  obtain ⟨-, hmonth, hmonth', hday, hday', -, -, hsecond, hnano⟩ := isValid_iff.mp h
  simp only [ofLocal?] at hlocal
  generalize hdate : (if ((t.hour * 60 + t.minute : Nat) - ahead : Int) < 0 then _ else _) =
    date at hlocal
  obtain ⟨year, month, day⟩ := date
  have hexists : (1 ≤ month ∧ month ≤ 12) ∧ 1 ≤ day ∧ day ≤ daysIn year month := by
    split_ifs at hdate
    · exact dayBefore_exists ⟨hmonth, hmonth'⟩ ⟨hday, hday'⟩ hdate
    · exact dayAfter_exists ⟨hmonth, hmonth'⟩ hdate
    · cases hdate
      exact ⟨⟨hmonth, hmonth'⟩, hday, hday'⟩
  split_ifs at hlocal with hknown
  cases hlocal
  have hyear : -262143 ≤ year ∧ year ≤ 262142 := by simpa [isKnownYear] using hknown
  obtain ⟨⟨hm, hm'⟩, hd, hd'⟩ := hexists
  refine isValid_iff.mpr ⟨hyear, hm, hm', hd, hd', ?_, ?_, hsecond, hnano⟩
  · show _ / 60 < 24
    omega
  · show _ % 60 < 60
    omega

theorem isValid_of_parse? {text : String} (h : parse? text = some t) : t.isValid = true := by
  simp only [parse?, ↓Json.bind_eq_some_iff] at h
  obtain ⟨⟨year, _⟩, -, _, -, ⟨month, _⟩, -, _, -, ⟨day, _⟩, -, _, -, ⟨hour, _⟩, -, _, -,
    ⟨minute, _⟩, -, _, -, ⟨second, _⟩, -, ⟨nanosecond, _⟩, -, ⟨ahead, _⟩, -, h⟩ := h
  split_ifs at h with hvalid
  rw [Bool.and_eq_true] at hvalid
  exact isValid_of_ofLocal? hvalid.2 h

theorem codec : Json.Codec (fun t : Timestamp => .str t.print) (fun j => j.text?.bind parse?)
    fun t => t.isValid = true where
  plain t := .str t.print
  read_write {t} h := Option.bind_eq_some_iff.mpr ⟨t.print, rfl, parse?_print h⟩
  fits_of_read {j t} h := by
    obtain ⟨text, -, htext⟩ := Option.bind_eq_some_iff.mp h
    exact isValid_of_parse? htext

end AspAtlas.Timestamp
