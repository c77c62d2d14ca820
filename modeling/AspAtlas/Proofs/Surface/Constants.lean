import AspAtlas.Proofs.Surface.Conditions
import AspAtlas.Proofs.Surface.Extent
import AspAtlas.Proofs.Surface.Rereading
import AspAtlas.Proofs.Surface.StatementText
/-!
Rendered terms as program text. The text of a term is the value of a constant that is defined by it.
-/
namespace AspAtlas

namespace Surface

open Node

variable {ls : List Lexeme} {ts : List Token}

/-- The units of a constant that is defined by a term. -/
theorem units_constant (h : Written .chain ls) :
    units ("#const c = ".toList ++ (chars ls ++ ['.'])) =
      .keyword .const :: .identifier "c" :: .punct .equal :: (ls ++ [.punct .dot, .finish]) := by
  have hname : (Lexeme.identifier "c").Spelled := by
    have hscan : scan 'c' [] = (.identifier "c", ['c'], []) := rfl
    exact spelled_of_scan rfl hscan (by simp)
  have hterm : units (chars ls ++ ['.']) = ls ++ [.punct .dot, .finish] :=
    h.stands.cut ['.'] (by rintro e ⟨⟩; rfl)
  calc units ("#const c = ".toList ++ (chars ls ++ ['.']))
      = units ((Lexeme.keyword .const).chars ++ ' ' :: ((Lexeme.identifier "c").chars ++
          ' ' :: ((Lexeme.punct .equal).chars ++ ' ' :: (chars ls ++ ['.'])))) := rfl
    _ = _ := by
      rw [units_word (keyword_spelled .const) (by decide), units_word hname (by decide),
        units_word (punct_spelled .equal) (by decide), hterm]

/-- A constant that is defined by a term is read, and its value has the text of the term. -/
theorem exists_constant (h : Written .chain ls) (file : Path)
    (hts : ts.map Token.lexeme =
      .keyword .const :: .identifier "c" :: .punct .equal :: (ls ++ [.punct .dot, .finish])) :
    ∃ span value, ofTokens? ts = some [.constant span "c" value] ∧
      (value.lower file).render.toList = chars ls := by
  obtain ⟨b₀, e₀, ts₁, rfl, h₁⟩ := exists_token hts
  obtain ⟨b₁, e₁, ts₂, rfl, h₂⟩ := exists_token h₁
  obtain ⟨b₂, e₂, ts₃, rfl, h₃⟩ := exists_token h₂
  obtain ⟨us, vs, rfl, hus, hvs⟩ := exists_tokens h₃
  obtain ⟨b₃, e₃, vs₁, rfl, h₄⟩ := exists_token hvs
  obtain ⟨b₄, e₄, rfl⟩ := exists_lone_token h₄
  have hsize : ls.length = us.length := by rw [← hus, List.length_map]
  have hread (n : Nat) (hn : 2 * us.length + 1 ≤ n) :=
    h.reads file n us [⟨.punct .dot, b₃, e₃⟩, ⟨.finish, b₄, e₄⟩] (by rwa [Part.bound, hsize]) hus
      (past_punct rfl)
  obtain ⟨value, hvalue, htext⟩ := hread (budget (us.length + 5)) (by unfold budget; omega)
  refine ⟨⟨b₀, b₄⟩, value, ofTokens?_of_statement (b := b₄) (e := e₄) (by simp) ?_, htext⟩
  have hbracket : bracketedName [⟨.finish, b₄, e₄⟩] = none := rfl
  simp [statement, includeStatement, constantStatement, keyword, identifier, punct, hvalue, endDot,
    hbracket, beginOf]

end Surface

open Node

/-- The text of every term of a program is that of a term again: a constant that is defined by it is
accepted, and has a value with that text. -/
theorem render_stable {file : Path} {text : String} {items : List Surface.Item}
    {root t : Node} {f : Field}
    (h : parseItems file text = .ok items) (hroot : .statement root ∈ items)
    (ht : root.StandsUnder f t) (hf : f ≠ .pool) (hterm : t.isTerm = true) (other : Path) :
    ∃ definition value, parseItems other ("#const c = " ++ t.render ++ ".") =
      .ok [.statement definition] ∧
      definition.kind = .definition ∧ definition.node? .value = some value ∧
      value.render = t.render := by
  obtain ⟨statements, hparse, s, hs, group, hlower, hroot⟩ :=
    Surface.exists_statement_of_parseItems h hroot
  obtain ⟨ls, hwritten, hrender⟩ :=
    Surface.Statement.legible (Surface.proper_of_parse? hparse s hs) hlower hroot f t ht hf hterm
  have hunits := Surface.units_constant hwritten
  rw [← hrender] at hunits
  obtain ⟨span, value, hread, htext⟩ := Surface.exists_constant hwritten other hunits
  have hparsed : Surface.parse? ("#const c = " ++ t.render ++ ".") =
      some [.constant span "c" value] := by
    rw [Surface.parse?, String.toList_append, String.toList_append, List.append_assoc]
    exact hread
  refine ⟨_, value.lower other, Surface.parseItems_of_singleton hparsed rfl, rfl, ?_, ?_⟩
  · rw [node?_withNode_of, if_pos rfl]
  · exact String.toList_inj.mp (htext.trans hrender.symm)

theorem render_stable_of_nested :
    ∃ items root t definition value,
      parseItems ⟨"a.lp"⟩ "p(f((1 + 2), (3, b), -(X .. 4); |Y - 1|, \"a b\"))." = .ok items ∧
      .statement root ∈ items ∧ root.StandsUnder .arguments t ∧ t.isTerm = true ∧
      t.render = "f(1+2,(3,b),-X..4;|Y-1|,\"a b\")" ∧
      parseItems ⟨"b.lp"⟩ ("#const c = " ++ t.render ++ ".") = .ok [.statement definition] ∧
      definition.kind = .definition ∧ definition.node? .value = some value ∧
      value.render = t.render := by
  have hread :
      (parseItems ⟨"a.lp"⟩ "p(f((1 + 2), (3, b), -(X .. 4); |Y - 1|, \"a b\")).").toOption.map
        (fun items => (statementsOf items).any fun root => (root.items .head).any fun head =>
          (head.items .atom).any fun atom => (atom.items .symbol).any fun symbol =>
            (symbol.items .arguments).any fun t =>
              t.isTerm && t.render == "f(1+2,(3,b),-X..4;|Y-1|,\"a b\")") = some true := by
    decide +kernel
  obtain ⟨items, hparse, hany⟩ := exists_ok_of_toOption hread
  obtain ⟨root, hroot, hany⟩ := List.any_eq_true.mp hany
  obtain ⟨head, hhead, hany⟩ := List.any_eq_true.mp hany
  obtain ⟨atom, hatom, hany⟩ := List.any_eq_true.mp hany
  obtain ⟨symbol, hsymbol, hany⟩ := List.any_eq_true.mp hany
  obtain ⟨t, ht, hrender⟩ := List.any_eq_true.mp hany
  obtain ⟨hterm, htext⟩ := Bool.and_eq_true_iff.mp hrender
  have hstands : root.StandsUnder .arguments t :=
    .deeper hhead (.deeper hatom (.deeper hsymbol (.child ht)))
  have hroot := mem_statementsOf.mp hroot
  obtain ⟨definition, value, hstable⟩ :=
    render_stable hparse hroot hstands (by decide) hterm ⟨"b.lp"⟩
  exact ⟨items, root, t, definition, value, hparse, hroot, hstands, hterm, eq_of_beq htext, hstable⟩

end AspAtlas
