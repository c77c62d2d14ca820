import AspAtlas.Proofs.Toml.Values
/-!
Reading back documents. A document that is written table by table is read line by line as the
members of its tables, in the same order.
-/
namespace AspAtlas.Toml

variable {c : Char} {n : Nat} {cs rest : List Char} {key name : String} {p p' : Progress}

/-- A key that may stand without quotes. -/
def IsKey (key : String) : Prop := key.toList ≠ [] ∧ ∀ c ∈ key.toList, isBare c = true

theorem IsKey.exists_cons (h : IsKey key) :
    ∃ c cs, key.toList = c :: cs ∧ ∀ {d}, isBare d = false → c ≠ d := by
  obtain ⟨c, cs, hkey⟩ := List.exists_cons_of_ne_nil h.1
  refine ⟨c, cs, hkey, fun hd => ?_⟩
  rintro rfl
  have hc := h.2 c (hkey ▸ List.mem_cons_self)
  rw [hd] at hc
  cases hc

/-- A key is read up to the next character that does not belong to it,
and blanks behind it dropped. -/
theorem key?_append (h : IsKey key) (hrest : ∀ c, rest.head? = some c → isBare c = false)
    (hdot : ∀ more, skipSpace rest ≠ '.' :: more) :
    key? (key.toList ++ rest) = some ([], key, skipSpace rest) := by
  have htake : (key.toList ++ rest).takeWhile isBare = key.toList := by
    rw [List.takeWhile_append_of_pos h.2]
    cases rest with
    | nil => simp
    | cons c rest => rw [List.takeWhile_cons_of_neg (by simp [hrest c rfl]), List.append_nil]
  have hsimple : simpleKey? (skipSpace (key.toList ++ rest)) = some (key, rest) := by
    obtain ⟨c, cs, hkey, hne⟩ := h.exists_cons
    have hspace : isSpace c = false := by simp [isSpace, hne (d := ' ') rfl, hne (d := '\t') rfl]
    rw [hkey, List.cons_append] at htake ⊢
    rw [skipSpace_of_head hspace, simpleKey?]
    · have hdrop : (c :: (cs ++ rest)).drop (c :: cs).length = rest := List.drop_left
      have hname : String.ofList (c :: cs) = key := by rw [← hkey, String.ofList_toList]
      simp only [htake, hdrop, hname, List.isEmpty_cons, Bool.false_eq_true, if_false]
    · exact fun _ heq => hne rfl (List.cons.inj heq).1
    · exact fun _ heq => hne rfl (List.cons.inj heq).1
  have hkeys : keys? depthLimit (key.toList ++ rest) = some ([key], skipSpace rest) := by
    rw [depthLimit, keys?, hsimple]
    simp only [Option.bind_eq_bind, Option.bind_some]
  rw [key?, hkeys]
  rfl

namespace Members

variable {members : Members} {f : Option Value → Option Value}

/-- A new key comes last. -/
theorem alter_new (h : key ∉ members.map Prod.fst) :
    alter key f members = (f none).map fun v => members ++ [(key, v)] := by
  induction members with
  | nil => rfl
  | cons m members ih =>
    rw [List.map_cons, List.mem_cons, not_or] at h
    rw [alter, if_neg (Ne.symm h.1), ih h.2, Option.map_map]
    rfl

/-- The key that has come last is found. -/
theorem alter_last {v : Value} (h : key ∉ members.map Prod.fst) :
    alter key f (members ++ [(key, v)]) = (f (some v)).map fun v => members ++ [(key, v)] := by
  induction members with
  | nil => simp [alter]
  | cons m members ih =>
    rw [List.map_cons, List.mem_cons, not_or] at h
    rw [List.cons_append, alter, if_neg (Ne.symm h.1), ih h.2, Option.map_map]
    rfl

theorem openTable_new (h : key ∉ members.map Prod.fst) :
    openTable key members = some (members ++ [(key, .table .header [])]) := alter_new h

/-- A key is added to the table that has been opened last. -/
theorem within_add_last {inner : Members} {v : Value} (hname : name ∉ members.map Prod.fst)
    (hkey : key ∉ inner.map Prod.fst) :
    within (add key v []) [name] (members ++ [(name, .table .header inner)]) =
      some (members ++ [(name, .table .header (inner ++ [(key, v)]))]) := by
  have hadd : add key v [] inner = some (inner ++ [(key, v)]) := alter_new hkey
  rw [within, alter_last hname]
  simp [within, hadd]

end Members

section Lines

/-- A line is read by one step, unless it is blank or a comment. -/
theorem lines?_step (hc : isSpace c = false ∧ c ≠ '#' ∧ c ≠ '\n' ∧ c ≠ '\r')
    (hstep : step? p (c :: cs) = some (p', '\n' :: rest)) :
    lines? (n + 1) p (c :: cs) = lines? n p' rest := by
  obtain ⟨hspace, hcomment, hfeed, hreturn⟩ := hc
  have hskip : skipSpace (c :: cs) = c :: cs := skipSpace_of_head hspace
  have hopen : lineEnd? (c :: cs) = none := by
    simp [lineEnd?, hskip, hcomment, afterFeed?_of_ne hfeed hreturn]
  have hend : lineEnd? ('\n' :: rest) = some rest := rfl
  simp [lines?, hskip, hopen, hstep, hend]

theorem lines?_blank : lines? (n + 1) p ('\n' :: rest) = lines? n p rest := rfl

/-- A header opens a table that is not there yet. -/
theorem lines?_header (hname : IsKey name) (hnew : name ∉ p.members.map Prod.fst) :
    lines? (n + 1) p ('[' :: (name.toList ++ ']' :: '\n' :: rest)) =
      lines? n ⟨p.members ++ [(name, .table .header [])], [name]⟩ rest := by
  have hkey : key? (name.toList ++ ']' :: '\n' :: rest) = some ([], name, ']' :: '\n' :: rest) :=
    key?_append hname (by rintro c ⟨⟩; rfl) (by simp [skipSpace, isSpace])
  refine lines?_step (by decide) ?_
  obtain ⟨c, cs, hchars, hne⟩ := hname.exists_cons
  rw [step?, header?, hkey]
  · simp [Members.within, Members.openTable_new hnew]
  · rw [hchars]
    exact fun _ heq => hne rfl (List.cons.inj heq).1

/-- A setting is added to the table that has been opened last. -/
theorem lines?_setting {front inner : Members} {written : String} {v : Value} (hkey : IsKey key)
    (hvalue : StandsFor written v) (hname : name ∉ front.map Prod.fst)
    (hnew : key ∉ inner.map Prod.fst) :
    lines? (n + 1) ⟨front ++ [(name, .table .header inner)], [name]⟩
        (key.toList ++ (" = ".toList ++ (written.toList ++ '\n' :: rest))) =
      lines? n ⟨front ++ [(name, .table .header (inner ++ [(key, v)]))], [name]⟩ rest := by
  have hread : key? (key.toList ++ (" = ".toList ++ (written.toList ++ '\n' :: rest))) =
      some ([], key, '=' :: ' ' :: (written.toList ++ '\n' :: rest)) :=
    key?_append hkey (by rintro c ⟨⟩; rfl) (by simp [skipSpace, isSpace])
  have hitem : value? depthLimit (skipSpace (' ' :: (written.toList ++ '\n' :: rest))) =
      some (v, '\n' :: rest) := hvalue 78 ('\n' :: rest) (by simp [Json.Follows])
  obtain ⟨c, cs, hchars, hne⟩ := hkey.exists_cons
  have hhead : isSpace c = false ∧ c ≠ '#' ∧ c ≠ '\n' ∧ c ≠ '\r' := by
    simp [isSpace, hne (d := ' ') rfl, hne (d := '\t') rfl, hne (d := '#') rfl, hne (d := '\n') rfl,
      hne (d := '\r') rfl]
  rw [hchars, List.cons_append] at hread ⊢
  refine lines?_step hhead ?_
  rw [step?, assignment?, keyValue?, hread]
  · simp [hitem, Members.within_add_last hname hnew]
  · exact fun _ heq => hne rfl (List.cons.inj heq).1
  · exact fun _ heq => hne rfl (List.cons.inj heq).1

end Lines

/-- A key, what is written behind it, and the value that this stands for. -/
structure Setting where
  key : String
  written : String
  value : Value

/-- A table as it is written. -/
structure Table where
  name : String
  settings : List Setting

namespace Table

/-- The lines of a table. -/
def text (t : Table) : String := tableOf t.name (t.settings.map fun s => (s.key, s.written))

/-- What a table holds. -/
def members (t : Table) : Members := t.settings.map fun s => (s.key, s.value)

/-- A table in which every key is found once, and every value read back. -/
structure Readable (t : Table) : Prop where
  name : IsKey t.name
  keys : ∀ s ∈ t.settings, IsKey s.key
  values : ∀ s ∈ t.settings, StandsFor s.written s.value
  distinct : (t.settings.map Setting.key).Nodup

end Table

/-- The lines of settings. -/
def linesOf (settings : List Setting) : List Char :=
  settings.flatMap fun s => s.key.toList ++ (" = ".toList ++ (s.written.toList ++ ['\n']))

theorem toList_text (t : Table) :
    t.text.toList = '[' :: (t.name.toList ++ ']' :: '\n' :: linesOf t.settings) := by
  simp [Table.text, tableOf, linesOf, List.flatMap_map]

section Tables

variable {front inner : Members} {settings : List Setting} {tables : List Table}

/-- Settings are added one by one to the table that has been opened last. -/
theorem lines?_settings (hkeys : ∀ s ∈ settings, IsKey s.key)
    (hvalues : ∀ s ∈ settings, StandsFor s.written s.value) (hname : name ∉ front.map Prod.fst)
    (hdistinct : (inner.map Prod.fst ++ settings.map Setting.key).Nodup) :
    lines? (n + settings.length) ⟨front ++ [(name, .table .header inner)], [name]⟩
        (linesOf settings ++ rest) =
      lines? n ⟨front ++
        [(name, .table .header (inner ++ settings.map fun s => (s.key, s.value)))], [name]⟩
        rest := by
  induction settings generalizing inner with
  | nil => simp [linesOf]
  | cons s settings ih =>
    obtain ⟨hkey, hkeys⟩ := List.forall_mem_cons.mp hkeys
    obtain ⟨hvalue, hvalues⟩ := List.forall_mem_cons.mp hvalues
    have hnew : s.key ∉ inner.map Prod.fst := fun hmem =>
      (List.nodup_append.mp hdistinct).2.2 _ hmem _ List.mem_cons_self rfl
    have hmore : ((inner ++ [(s.key, s.value)]).map Prod.fst ++
        settings.map Setting.key).Nodup := by
      simpa using hdistinct
    have hlines : linesOf (s :: settings) ++ rest =
        s.key.toList ++ (" = ".toList ++
          (s.written.toList ++ '\n' :: (linesOf settings ++ rest))) := by
      simp [linesOf]
    rw [hlines, List.length_cons, ← Nat.add_assoc, lines?_setting hkey hvalue hname hnew,
      ih hkeys hvalues hmore]
    simp

/-- A table is added behind those that are there. -/
theorem lines?_table {t : Table} (h : t.Readable) (hnew : t.name ∉ p.members.map Prod.fst) :
    lines? (n + t.settings.length + 1) p (t.text.toList ++ rest) =
      lines? n ⟨p.members ++ [(t.name, .table .header t.members)], [t.name]⟩ rest := by
  have hdistinct : (([] : Members).map Prod.fst ++ t.settings.map Setting.key).Nodup := h.distinct
  rw [toList_text, List.cons_append, List.append_assoc, List.cons_append, List.cons_append,
    lines?_header h.name hnew, lines?_settings h.keys h.values hnew hdistinct]
  rfl

/-- The number of lines of some tables, each behind a blank one. -/
def lineCount : List Table → Nat
  | [] => 0
  | t :: tables => lineCount tables + t.settings.length + 2

/-- Tables are read one by one, each behind a blank line. -/
theorem lines?_tables (h : ∀ t ∈ tables, t.Readable)
    (hdistinct : (p.members.map Prod.fst ++ tables.map Table.name).Nodup) :
    lines? (n + 1 + lineCount tables) p (tables.flatMap fun t => '\n' :: t.text.toList) =
      some (p.members ++ tables.map fun t => (t.name, .table .header t.members)) := by
  induction tables generalizing p with
  | nil => simp [lineCount, lines?, skipSpace]
  | cons t tables ih =>
    obtain ⟨ht, htables⟩ := List.forall_mem_cons.mp h
    have hnew : t.name ∉ p.members.map Prod.fst := fun hmem =>
      (List.nodup_append.mp hdistinct).2.2 _ hmem _ List.mem_cons_self rfl
    have hcount : n + 1 + lineCount (t :: tables) =
        (n + 1 + lineCount tables) + t.settings.length + 1 + 1 := by
      simp only [lineCount]
      omega
    rw [hcount, List.flatMap_cons, List.cons_append, lines?_blank, lines?_table ht hnew, ih htables]
    · simp
    · simpa using hdistinct

theorem length_le_linesOf (settings : List Setting) :
    settings.length ≤ (linesOf settings).length := by
  induction settings with
  | nil => exact Nat.le_refl _
  | cons s settings ih =>
    simp only [linesOf, List.flatMap_cons, List.length_append, List.length_cons] at ih ⊢
    omega

theorem lineCount_le (tables : List Table) :
    lineCount tables ≤ (tables.flatMap fun t => '\n' :: t.text.toList).length := by
  induction tables with
  | nil => exact Nat.le_refl _
  | cons t tables ih =>
    have hlines := length_le_linesOf t.settings
    simp only [lineCount, List.flatMap_cons, List.length_append, List.length_cons,
      toList_text] at ih ⊢
    omega

/-- With a blank line in front, every table of a document stands behind one. -/
theorem feed_cons_documentOf (t : Table) (tables : List Table) :
    '\n' :: (documentOf ((t :: tables).map Table.text)).toList =
      (t :: tables).flatMap fun t => '\n' :: t.text.toList := by
  induction tables generalizing t with
  | nil => simp [documentOf]
  | cons next tables ih =>
    have hnext := ih next
    rw [documentOf] at hnext ⊢
    rw [List.flatMap_cons, ← hnext]
    simp [String.intercalate_cons_cons]

/-- A document of tables is read back. -/
theorem parse?_documentOf (h : ∀ t ∈ tables, t.Readable)
    (hdistinct : (tables.map Table.name).Nodup) : parse? (documentOf (tables.map Table.text)) =
      some (tables.map fun t => (t.name, .table .header t.members)) := by
  cases tables with
  | nil => rfl
  | cons t tables =>
    have hfeed := feed_cons_documentOf t tables
    have hmark : ∃ more, (documentOf ((t :: tables).map Table.text)).toList = '[' :: more := by
      rw [List.flatMap_cons, List.cons_append, toList_text, List.cons_append] at hfeed
      exact ⟨_, (List.cons.inj hfeed).2⟩
    have hcount := lineCount_le (t :: tables)
    rw [← hfeed, List.length_cons] at hcount
    obtain ⟨n, hn⟩ := Nat.exists_eq_add_of_le' hcount
    have hread := lines?_tables (n := n) (p := {}) h (by simpa using hdistinct)
    rw [Nat.add_right_comm, ← hn, ← hfeed, lines?_blank] at hread
    obtain ⟨more, hchars⟩ := hmark
    rw [hchars] at hread
    simp only [parse?, hchars]
    exact hread

end Tables

end AspAtlas.Toml
