import AspAtlas.Proofs.Surface.Extent
import AspAtlas.Proofs.Surface.Joints
/-!
Runs of tokens. The tokens that stand within the span of a statement are those that it was read
from, and the text from the first to the last of them is a piece of the program text.
-/
namespace AspAtlas.Surface

variable {p : Position} {cs : List Char} {t last : Token} {ts pre own post rest : List Token}
  {l : Location}

namespace Ascending

theorem beginOf_le (h : Ascending ts) (ht : t ∈ ts) : beginOf ts ≤ t.begin := by
  induction h with
  | finish =>
    rw [List.mem_singleton] at ht
    rw [ht]
    exact le_refl _
  | token hlt hnext _ _ ih =>
    rcases List.mem_cons.mp ht with rfl | ht
    · exact le_refl _
    · exact hlt.le.trans (hnext.trans (ih ht))

theorem begin_lt_stop (h : Ascending ts) (ht : t ∈ ts) (hne : t.lexeme ≠ .finish) :
    t.begin < t.stop := by
  induction h with
  | finish =>
    rw [List.mem_singleton] at ht
    exact absurd (congrArg Token.lexeme ht) hne
  | token hlt _ _ _ ih =>
    rcases List.mem_cons.mp ht with rfl | ht
    · exact hlt
    · exact ih ht

theorem pairwise (h : Ascending ts) : ts.Pairwise fun t u => t.stop ≤ u.begin := by
  induction h with
  | finish => exact List.pairwise_singleton _ _
  | token _ hnext _ hts ih => exact .cons (fun u hu => hnext.trans (hts.beginOf_le hu)) ih

theorem of_append (h : Ascending (own ++ rest)) (hrest : rest ≠ []) : Ascending rest := by
  induction own with
  | nil => exact h
  | cons t own ih =>
    rw [List.cons_append] at h
    generalize hmore : own ++ rest = more at h
    cases h with
    | finish => simp [hrest] at hmore
    | token _ _ _ hts => exact ih (hmore ▸ hts)

end Ascending

instance : DecidableLE Position := fun _ _ => decidable_of_iff _ Position.le_iff.symm

/-- Whether a token stands within a span. -/
def Token.isWithin (l : Location) (t : Token) : Bool :=
  t.lexeme ≠ .finish ∧ l.begin ≤ t.begin ∧ t.stop ≤ l.stop

/-- The tokens of a text that stand within a span. -/
def tokensIn (cs : List Char) (l : Location) : List Token := (tokens cs).filter (Token.isWithin l)

theorem Finished.ne_finish (h : Finished (own ++ rest)) (hrest : rest ≠ []) (ht : t ∈ own) :
    t.lexeme ≠ .finish := by
  induction own with
  | nil => cases ht
  | cons u own ih =>
    rw [List.cons_append] at h
    have hu : u.lexeme ≠ .finish := by
      intro he
      have hnone := h.tail_eq_nil he
      simp [hrest] at hnone
    rcases List.mem_cons.mp ht with rfl | ht
    · exact hu
    · generalize hmore : own ++ rest = more at h
      cases h with
      | last he => exact absurd he hu
      | cons _ htail => exact ih (hmore ▸ htail) ht

/-- A piece of a text that reaches from the first to the last token within a span. -/
def WrittenAt (cs : List Char) (l : Location) (own : List Char) : Prop :=
  ∃ before behind first last, cs = before ++ own ++ behind ∧
    (tokensIn cs l).head? = some first ∧ (tokensIn cs l).getLast? = some last ∧
    first.begin = advanceBy Position.start before ∧
    last.stop = advanceBy Position.start (before ++ own)

/-- A token stands at a joint, and what is left there gives it and the tokens behind it. -/
theorem exists_split_of_lex (h : lex p cs = pre ++ t :: rest) :
    ∃ before behind, cs = before ++ behind ∧ behind ∈ joints cs ∧ gap? behind = none ∧
      t.begin = advanceBy p before ∧ lex (advanceBy p before) behind = t :: rest := by
  induction p, cs using lex_induction generalizing pre with
  | nil p =>
    rw [lex_nil] at h
    obtain ⟨rfl, rfl, rfl⟩ : pre = [] ∧ t = ⟨.finish, p, p⟩ ∧ rest = [] := by
      cases pre with
      | nil => simpa [eq_comm] using h
      | cons u pre => simp at h
    exact ⟨[], [], rfl, self_mem_joints [], rfl, rfl, rfl⟩
  | gap p cs used left hgap ih =>
    obtain ⟨before, behind, rfl, hjoint, hnone, hbegin, hlex⟩ := ih (lex_gap p hgap ▸ h)
    refine ⟨used ++ before, behind, ?_, ?_, hnone, ?_, ?_⟩
    · rw [(gap?_split hgap).1, List.append_assoc]
    · rw [joints_piece (piece?_gap hgap)]
      exact List.mem_cons_of_mem _ hjoint
    · rw [hbegin, advanceBy_append]
    · rw [advanceBy_append, hlex]
  | unit p c cs lexeme used left hgap hscan ih =>
    cases pre with
    | nil =>
      refine ⟨[], c :: cs, rfl, self_mem_joints _, hgap, ?_, h⟩
      rw [lex_scan p hgap hscan, List.nil_append, List.cons.injEq] at h
      rw [← h.1]
      rfl
    | cons u pre =>
      rw [lex_scan p hgap hscan, List.cons_append, List.cons.injEq] at h
      obtain ⟨before, behind, rfl, hjoint, hnone, hbegin, hlex⟩ := ih h.2
      refine ⟨used ++ before, behind, ?_, ?_, hnone, ?_, ?_⟩
      · rw [scan_split hscan, List.append_assoc]
      · rw [joints_piece (piece?_unit hgap hscan)]
        exact List.mem_cons_of_mem _ hjoint
      · rw [hbegin, advanceBy_append]
      · rw [advanceBy_append, hlex]

/-- The text of a run of tokens: it begins with the first one, and ends
with the last one at a joint. -/
theorem exists_text_of_run (h : lex p cs = pre ++ own ++ post) (hlast : own.getLast? = some last)
    (hne : last.lexeme ≠ .finish) :
    ∃ before written behind, cs = before ++ written ++ behind ∧ behind ∈ joints cs ∧
      beginOf own = advanceBy p before ∧ last.stop = advanceBy p (before ++ written) ∧
      ∀ s, last.lexeme = .punct s → s.text.toList <:+ written := by
  obtain ⟨init, rfl⟩ := List.getLast?_eq_some_iff.mp hlast
  obtain ⟨first, run, hrun⟩ := List.exists_cons_of_ne_nil (l := init ++ [last] ++ post) (by simp)
  rw [List.append_assoc, hrun] at h
  obtain ⟨before, behind, rfl, hfirst, -, hbegin, hlex⟩ := exists_split_of_lex h
  rw [← hrun, List.append_assoc, List.singleton_append] at hlex
  obtain ⟨mid, left, rfl, hjoint, hgap, -, hlex⟩ := exists_split_of_lex hlex
  cases left with
  | nil =>
    rw [lex_nil, List.cons.injEq] at hlex
    exact absurd (congrArg Token.lexeme hlex.1.symm) hne
  | cons c left =>
    rcases hscan : scan c left with ⟨lexeme, used, rest⟩
    rw [lex_scan _ hgap hscan, List.cons.injEq] at hlex
    obtain ⟨rfl, -⟩ := hlex
    refine ⟨before, mid ++ used, rest, ?_, ?_, ?_, ?_, ?_⟩
    · rw [scan_split hscan]
      simp
    · refine mem_joints_trans hfirst (mem_joints_trans hjoint ?_)
      rw [joints_piece (piece?_unit hgap hscan)]
      exact List.mem_cons_of_mem _ (self_mem_joints rest)
    · have hfront := congrArg beginOf hrun
      rw [beginOf_append (by simp)] at hfront
      rw [hfront, beginOf, hbegin]
    · rw [← advanceBy_append, ← advanceBy_append, List.append_assoc]
    · rintro s rfl
      rw [← used_of_scan_punct hscan]
      exact List.suffix_append _ _

/-- A span that begins with a run of tokens and ends at the last one, or in the gap behind it, is
that of the run. -/
theorem tokensIn_eq (h : tokens cs = pre ++ own ++ post) (hpost : post ≠ [])
    (hlast : own.getLast? = some last) (hbegin : l.begin = beginOf own) (hstop : last.stop ≤ l.stop)
    (hnext : l.stop ≤ beginOf post) : tokensIn cs l = own := by
  have hascending := tokens_ascending cs
  have hfinished : Finished (tokens cs) := lex_finished Position.start cs
  have hordered := hascending.pairwise
  rw [h] at hascending hfinished hordered
  have hne (t : Token) (ht : t ∈ pre ++ own) : t.lexeme ≠ .finish := hfinished.ne_finish hpost ht
  obtain ⟨hfront, -⟩ := List.pairwise_append.mp hordered
  obtain ⟨-, hown, hbefore⟩ := List.pairwise_append.mp hfront
  have hrest : Ascending (own ++ post) := by
    rw [List.append_assoc] at hascending
    exact hascending.of_append (by simp [hpost])
  have hlt (t : Token) (ht : t ∈ pre ++ own ++ post) (hne : t.lexeme ≠ .finish) :
      t.begin < t.stop :=
    hascending.begin_lt_stop ht hne
  obtain ⟨init, rfl⟩ := List.getLast?_eq_some_iff.mp hlast
  obtain ⟨first, run, hrun⟩ := List.exists_cons_of_ne_nil (l := init ++ [last]) (by simp)
  have hfirst : l.begin = first.begin := by rw [hbegin, hrun, beginOf]
  have hpre : pre.filter (Token.isWithin l) = [] := by
    rw [List.filter_eq_nil_iff]
    intro t ht hin
    obtain ⟨hother, hle, -⟩ := of_decide_eq_true hin
    have hstop : t.stop ≤ first.begin := hbefore t ht first (hrun ▸ List.mem_cons_self)
    exact absurd (hlt t (by simp [ht]) hother) (not_lt_of_ge (hstop.trans (hfirst ▸ hle)))
  have hmid : (init ++ [last]).filter (Token.isWithin l) = init ++ [last] := by
    rw [List.filter_eq_self]
    intro t ht
    have hother : t.lexeme ≠ .finish := hne t (List.mem_append_right _ ht)
    have hle : l.begin ≤ t.begin := by
      have hfront := hrest.beginOf_le (List.mem_append_left post ht)
      rwa [beginOf_append (by simp), ← hbegin] at hfront
    have hlast : t.stop ≤ last.stop := by
      rcases List.mem_append.mp ht with ht | ht
      · have hend : last.begin < last.stop := hlt last (by simp) (hne last (by simp))
        exact ((List.pairwise_append.mp hown).2.2 t ht last
          (List.mem_singleton_self _)).trans hend.le
      · rw [List.mem_singleton.mp ht]
    exact decide_eq_true ⟨hother, hle, hlast.trans hstop⟩
  have hbehind : post.filter (Token.isWithin l) = [] := by
    rw [List.filter_eq_nil_iff]
    intro t ht hin
    obtain ⟨hother, -, hle⟩ := of_decide_eq_true hin
    have hbegin : beginOf post ≤ t.begin := (hrest.of_append hpost).beginOf_le ht
    exact absurd (hlt t (by simp [ht]) hother) (not_lt_of_ge (hle.trans (hnext.trans hbegin)))
  rw [tokensIn, h, List.filter_append, List.filter_append, hpre, hmid, hbehind, List.nil_append,
    List.append_nil]

end AspAtlas.Surface

namespace AspAtlas

open Surface

/-- Tokens end before those behind them begin. -/
theorem Surface.stop_le_beginOf {cs : List Char} {pre own post : List Token} {last : Token}
    (h : tokens cs = pre ++ own ++ post) (hpost : post ≠ []) (hlast : own.getLast? = some last) :
    last.stop ≤ beginOf post := by
  obtain ⟨next, more, rfl⟩ := List.exists_cons_of_ne_nil hpost
  have hordered := (tokens_ascending cs).pairwise
  rw [h] at hordered
  exact (List.pairwise_append.mp hordered).2.2 last
    (List.mem_append_right _ (List.mem_of_getLast? hlast)) next List.mem_cons_self

/-- The tokens that a statement of a file was read from. They begin where the statement does and
close it; the statement ends with them or in front of the next token. -/
theorem exists_run_of_parseItems {file : Path} {text : String} {items : List Item}
    (h : parseItems file text = .ok items) {node : Node} (hnode : .statement node ∈ items)
    (hkind : node.kind ≠ .minimize) :
    ∃ pre own post last, tokens text.toList = pre ++ own ++ post ∧ post ≠ [] ∧
      own.getLast? = some last ∧ last.Closes ∧ node.location.begin = beginOf own ∧
      (node.location.stop = last.stop ∨ node.location.stop = beginOf post) := by
  obtain ⟨statements, hparse, hlower⟩ := lowerProgram_of_parseItems h
  obtain ⟨shared, final, rfl, -, htokens, hshares⟩ :=
    statementsFrom_shares hparse (lex_finished Position.start text.toList)
  obtain ⟨groups, hitems, hgroups⟩ := lowerProgram_groups hlower
  obtain ⟨runs, hsame, hflat, hruns⟩ := hshares.groups hgroups
  rw [hitems, ← hflat, List.mem_flatMap] at hnode
  obtain ⟨⟨own, group⟩, hrun, hnode⟩ := hnode
  obtain ⟨before, after, rfl⟩ := List.append_of_mem hrun
  obtain ⟨s, ⟨last, hlast, hcloses, hbegin, hstop⟩, hs⟩ := hruns before own group after rfl
  obtain ⟨-, hlocation, -⟩ := location_of_lower hs hnode hkind
  have hsplit : tokens text.toList =
      before.flatMap (·.1) ++ own ++ (after.flatMap (·.1) ++ [final]) := by
    rw [htokens, ← hsame]
    simp
  refine ⟨_, own, _, last, hsplit, by simp, hlast, hcloses, by rw [hlocation, hbegin], ?_⟩
  rw [hlocation, hstop]
  split
  · exact .inr rfl
  · exact .inl rfl

end AspAtlas
