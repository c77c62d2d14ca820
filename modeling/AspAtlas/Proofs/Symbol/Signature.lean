import AspAtlas.Proofs.Symbol.Registry
import AspAtlas.Proofs.Text.Decimal
/-!
Signatures as texts. A signature ends in a slash and the digits of its arity, which tells name and
arity; every predicate occurrence that a registry of a program finds has such a signature.
-/
namespace AspAtlas

namespace Symbol

theorem toList_signatureOf (name : String) (arity : Nat) :
    (signatureOf name arity).toList = name.toList ++ '/' :: Nat.toDigits 10 arity := by
  have hname : toString name = name := rfl
  have hslash : (toString "/").toList = ['/'] := rfl
  simp [signatureOf, hname, hslash]

/-- A signature tells name and arity: its last slash stands before the arity. -/
theorem signatureOf_inj {name name' : String} {arity arity' : Nat}
    (h : signatureOf name arity = signatureOf name' arity') : name = name' ∧ arity = arity' := by
  have hlists := congrArg String.toList h
  rw [toList_signatureOf, toList_signatureOf] at hlists
  obtain ⟨hname, -, harity⟩ := Text.append_digits_inj (by decide) (by decide) hlists
  exact ⟨String.toList_inj.mp hname, harity⟩

/-- The text is the signature of some name and arity. -/
def IsSignature (text : String) : Prop := ∃ name arity, text = signatureOf name arity

/-- What stands at an atom is an occurrence without documentation. -/
theorem exists_occurrence_of_ofAtom? {atom : Node} {s : Symbol} (h : ofAtom? atom = some s) :
    ∃ name arguments location, s = occurrence name arguments location none := by
  simp only [ofAtom?, Option.bind_eq_bind, Option.bind_eq_some_iff, Option.some.injEq] at h
  obtain ⟨_, _, rfl⟩ := h
  exact ⟨_, _, _, rfl⟩

theorem isSignature_ofAtom? {atom : Node} {s : Symbol} (h : ofAtom? atom = some s) :
    IsSignature s.signature := by
  obtain ⟨name, arguments, _, rfl⟩ := exists_occurrence_of_ofAtom? h
  exact ⟨name, arguments.length, rfl⟩

end Symbol

namespace SymbolRegistry

variable {nodes : List Node} {root : Path} {directives : DirectiveIndex} {directiveName : String}

/-- What a registry holds comes from atoms, documented or not. -/
theorem exists_atom_of_mem_extracted {s : Symbol}
    (h : s ∈ (nodes.filter fun n => n.location.isIn root).flatMap fun n =>
      (occurrencesIn n).map (document directives directiveName)) :
    ∃ atom bare, Symbol.ofAtom? atom = some bare ∧ s = document directives directiveName bare := by
  obtain ⟨n, -, hs⟩ := List.mem_flatMap.mp h
  obtain ⟨bare, hbare, rfl⟩ := List.mem_map.mp hs
  obtain ⟨atom, -, hatom⟩ := List.mem_filterMap.mp hbare
  cases hkind : atom.isAtom with
  | false => simp [hkind] at hatom
  | true =>
    simp only [hkind, if_true] at hatom
    exact ⟨atom, bare, hatom, rfl⟩

theorem isSignature_of_resolve? {atom : Node} {s : Symbol}
    (h : (extract nodes root directives directiveName).resolve? atom = some s) :
    Symbol.IsSignature s.signature := by
  rw [extract, resolve?_ofList] at h
  obtain ⟨fresh, hfresh, hs⟩ := Option.map_eq_some_iff.mp h
  cases hlast : lastAt ((nodes.filter fun n => n.location.isIn root).flatMap fun n =>
      (occurrencesIn n).map (document directives directiveName)) fresh.key with
  | none =>
    rw [hlast, Option.getD_none] at hs
    subst hs
    exact Symbol.isSignature_ofAtom? hfresh
  | some found =>
    rw [hlast, Option.getD_some] at hs
    subst hs
    obtain ⟨_, bare, hbare, rfl⟩ := exists_atom_of_mem_extracted (mem_of_lastAt hlast).1
    have hsignature : Symbol.IsSignature bare.signature := Symbol.isSignature_ofAtom? hbare
    exact hsignature

end SymbolRegistry
end AspAtlas
