import AspAtlas.Grammar.Derivation
/-!
An expression has one outcome at a place: choices are ordered and repetitions take all they can.
-/
namespace AspAtlas.Grammar

variable {inToken : Bool} {e : Expr Rule} {p : Place} {x y : Option (Place × List Pair)}

theorem Derives.unique (hx : Derives inToken e p x) (hy : Derives inToken e p y) : x = y := by
  induction hx generalizing y with
  | text h => cases hy <;> simp_all
  | noText h => cases hy <;> simp_all
  | char h hc => cases hy <;> simp_all
  | noChar h => cases hy <;> simp_all
  | finish h => cases hy <;> simp_all
  | noFinish h => cases hy <;> simp_all
  | rule h ih =>
    cases hy with
    | rule h' =>
      cases ih h'
      rfl
    | noRule h' => cases ih h'
  | noRule h ih =>
    cases hy with
    | rule h' => cases ih h'
    | noRule h' => rfl
  | seq ha hb iha ihb =>
    cases hy with
    | seq ha' hb' =>
      cases iha ha'
      cases ihb hb'
      rfl
    | noFirst ha' => cases iha ha'
    | noSecond ha' hb' =>
      cases iha ha'
      cases ihb hb'
  | noFirst ha iha =>
    cases hy with
    | seq ha' hb' => cases iha ha'
    | noFirst ha' => rfl
    | noSecond ha' hb' => rfl
  | noSecond ha hb iha ihb =>
    cases hy with
    | seq ha' hb' =>
      cases iha ha'
      cases ihb hb'
    | noFirst ha' => rfl
    | noSecond ha' hb' => rfl
  | left ha iha =>
    cases hy with
    | left ha' => exact iha ha'
    | right ha' hb' => cases iha ha'
  | right ha hb iha ihb =>
    cases hy with
    | left ha' => cases iha ha'
    | right ha' hb' => exact ihb hb'
  | there ha iha =>
    cases hy with
    | there ha' => exact iha ha'
    | missing ha' => cases iha ha'
  | missing ha iha =>
    cases hy with
    | there ha' => cases iha ha'
    | missing ha' => rfl
  | never ha iha =>
    cases hy with
    | never ha' => rfl
    | last ha' hb' => cases iha ha'
    | again ha' hb' hmore' => cases iha ha'
  | last ha hb iha ihb =>
    cases hy with
    | never ha' => cases iha ha'
    | last ha' hb' => exact iha ha'
    | again ha' hb' hmore' =>
      cases iha ha'
      cases ihb hb'
  | again ha hb hmore iha ihb ihmore =>
    cases hy with
    | never ha' => cases iha ha'
    | last ha' hb' =>
      cases iha ha'
      cases ihb hb'
    | again ha' hb' hmore' =>
      cases iha ha'
      cases ihmore hmore'
      rfl
  | present ha iha =>
    cases hy with
    | present ha' => rfl
    | absent ha' => cases iha ha'
  | absent ha iha =>
    cases hy with
    | present ha' => cases iha ha'
    | absent ha' => rfl

end AspAtlas.Grammar
