import AspAtlas.Proofs.Statement.Usage
import AspAtlas.Proofs.Symbol.Signature
/-!
What the kind of a classified statement says about it. Facts depend on nothing, constraints define
nothing and are named by their number, and inputs and outputs have a signature for their identity,
which the name of a constraint never is. The constraints of a program are numbered in its order.
-/
namespace AspAtlas

namespace Classification

theorem toList_constraintName (n : Nat) :
    (constraintName n).toList = "Constraint".toList ++ '#' :: Nat.toDigits 10 n := by
  have hlead : (toString "Constraint#").toList = "Constraint".toList ++ ['#'] := by decide
  simp [constraintName, hlead]

/-- Behind any qualifiers, the names of constraints tell their numbers. -/
theorem append_constraintName_inj {lead lead' : String} {m n : Nat}
    (h : lead ++ constraintName m = lead' ++ constraintName n) : m = n := by
  have hlists := congrArg String.toList h
  rw [String.toList_append, String.toList_append, toList_constraintName, toList_constraintName,
    ← List.append_assoc, ← List.append_assoc] at hlists
  exact (Text.append_digits_inj (by decide) (by decide) hlists).2.2

/-- No qualifier makes the name of a constraint a signature. -/
theorem not_isSignature_append_constraintName (lead : String) (n : Nat) :
    ¬ Symbol.IsSignature (lead ++ constraintName n) := by
  rintro ⟨name, arity, h⟩
  have hlists := congrArg String.toList h
  rw [String.toList_append, toList_constraintName, Symbol.toList_signatureOf,
    ← List.append_assoc] at hlists
  have hlast : '#' = '/' := (Text.append_digits_inj (by decide) (by decide) hlists).2.1
  exact absurd hlast (by decide)

end Classification

/-- What classification gives every statement of a program. -/
structure Statement.Classified (s : Statement) : Prop where
  fact : s.kind = .fact → s.dependsOn = []
  constraint : s.kind = .constraint →
    s.defines = [] ∧ ∃ n, s.number = some n ∧ s.identity = Classification.constraintName n
  symbols : ∀ q, q ∈ s.defines ∨ q ∈ s.dependsOn → Symbol.IsSignature q.signature
  declared : s.kind = .input ∨ s.kind = .output → Symbol.IsSignature s.identity

namespace Classification

variable {r : SymbolRegistry} {k : Nat} {n : Node} {s : Statement}

theorem mem_collect {q : Symbol} (h : q ∈ (r.collect n).defines ∨ q ∈ (r.collect n).dependsOn) :
    ∃ atom, r.resolve? atom = some q := by
  rw [SymbolRegistry.collect_eq_routes] at h
  rcases h with h | h
  · obtain ⟨x, -, hx⟩ := List.mem_filterMap.mp h
    exact ⟨x.2, (Option.ite_none_right_eq_some.mp hx).2⟩
  · obtain ⟨x, -, hx⟩ := List.mem_filterMap.mp h
    exact ⟨x.2, (Option.ite_none_left_eq_some.mp hx).2⟩

/-- The signature that a statement shows is one. -/
theorem isSignature_shownSignature? {text : String} (h : shownSignature? n = some text) :
    Symbol.IsSignature text := by
  simp only [shownSignature?] at h
  split at h
  · split at h
    · split at h
      · cases h
      · cases h
        exact ⟨_, _, rfl⟩
    · cases h
  · obtain ⟨term, -, rfl⟩ := Option.map_eq_some_iff.mp h
    split
    · split <;> exact ⟨_, _, rfl⟩
    · exact ⟨_, _, rfl⟩
    · exact ⟨_, _, rfl⟩
  · cases h

/-- A statement is a rule-shaped one made of a rule, or else declared by its node. -/
theorem ofNode_eq_statement (h : ofNode r k n = .statement s) :
    n.kind = .rule ∧ ofRule k (r.collect n) n.location = .statement s ∨
      n.kind ≠ .rule ∧ ∃ kind identity,
        s = .bare kind identity (r.collect n).defines (r.collect n).dependsOn n.location none ∧
          (kind = .definition ∨ (kind = .input ∨ kind = .output) ∧
            Symbol.IsSignature identity) := by
  simp only [ofNode] at h
  split at h
  case h_1 hkind => exact .inl ⟨hkind, h⟩
  case h_2 hkind =>
    cases h
    exact .inr ⟨by simp [hkind], _, _, rfl, .inr ⟨.inl rfl, _, _, rfl⟩⟩
  case h_3 hkind =>
    cases h
    exact .inr ⟨by simp [hkind], _, _, rfl, .inl rfl⟩
  case h_4 hkind | h_5 hkind =>
    split at h
    · rename_i hshown
      cases h
      exact .inr ⟨by simp [hkind], _, _, rfl, .inr ⟨.inr rfl, isSignature_shownSignature? hshown⟩⟩
    · cases h
  case h_6 => cases h

theorem classified_of_ofNode
    (hr : ∀ atom q, r.resolve? atom = some q → Symbol.IsSignature q.signature)
    (h : ofNode r k n = .statement s) : s.Classified := by
  have hsymbols (q : Symbol) (hq : q ∈ (r.collect n).defines ∨ q ∈ (r.collect n).dependsOn) :
      Symbol.IsSignature q.signature := by
    obtain ⟨atom, hatom⟩ := mem_collect hq
    exact hr atom q hatom
  rcases ofNode_eq_statement h with ⟨-, hrule⟩ | ⟨-, kind, identity, rfl, hkind⟩
  · generalize r.collect n = sets at hrule hsymbols
    obtain ⟨defines, dependsOn⟩ := sets
    cases defines <;> cases dependsOn <;> cases hrule <;>
      exact ⟨by simp [Statement.bare], by simp [Statement.bare], hsymbols, by simp [Statement.bare]⟩
  · rcases hkind with rfl | ⟨rfl | rfl, hsignature⟩
    · exact ⟨by simp [Statement.bare], by simp [Statement.bare], hsymbols, by simp [Statement.bare]⟩
    · exact ⟨by simp [Statement.bare], by simp [Statement.bare], hsymbols, fun _ => hsignature⟩
    · exact ⟨by simp [Statement.bare], by simp [Statement.bare], hsymbols, fun _ => hsignature⟩

/-- A node becomes a constraint exactly if it is a rule that defines
nothing and depends on something. -/
theorem exists_constraint_iff :
    (∃ s, ofNode r k n = .statement s ∧ s.kind = .constraint) ↔
      n.kind = .rule ∧ (r.collect n).defines = [] ∧ (r.collect n).dependsOn ≠ [] := by
  by_cases hkind : n.kind = .rule
  · rw [ofNode_rule r k hkind, (ofRule_reflects k n _ _).constraint]
    exact ⟨fun h => ⟨hkind, h⟩, fun h => h.2⟩
  · constructor
    · rintro ⟨s, hs, hconstraint⟩
      rcases ofNode_eq_statement hs with ⟨hrule, -⟩ | ⟨-, kind, identity, rfl, hdeclared⟩
      · exact absurd hrule hkind
      · have hbare : kind = .constraint := hconstraint
        subst hbare
        rcases hdeclared with h | ⟨h | h, -⟩ <;> cases h
    · rintro ⟨hrule, -⟩
      exact absurd hrule hkind

theorem number_of_ofNode (h : ofNode r k n = .statement s) (hkind : s.kind = .constraint) :
    s.number = some k ∧ s.identity = constraintName k := by
  obtain ⟨hrule, hdefines, hdependsOn⟩ := exists_constraint_iff.mp ⟨s, h, hkind⟩
  rw [ofNode_rule r k hrule] at h
  generalize r.collect n = sets at h hdefines hdependsOn
  obtain ⟨defines, dependsOn⟩ := sets
  cases defines <;> cases dependsOn <;> cases h <;> simp_all [Statement.bare]

/-- The constraints among some classified nodes, in order. -/
def constraints (classified : List Classification) : List Statement :=
  (classified.filterMap statement?).filter fun s => s.kind = .constraint

/-- Constraints take the numbers one after another; no other node uses one up. -/
theorem constraints_numbered (r : SymbolRegistry) (k : Nat) (nodes : List Node) {i : Nat}
    (h : (constraints (ofNodesFrom r k nodes))[i]? = some s) :
    s.number = some (k + i) ∧ s.identity = constraintName (k + i) := by
  induction nodes generalizing k i with
  | nil => simp [ofNodesFrom, constraints] at h
  | cons n rest ih =>
    by_cases hconstraint : ∃ s, ofNode r k n = .statement s ∧ s.kind = .constraint
    · obtain ⟨first, hfirst, hkind⟩ := hconstraint
      have hsplit : constraints (ofNodesFrom r k (n :: rest)) =
          first :: constraints (ofNodesFrom r (k + 1) rest) := by
        simp [ofNodesFrom, constraints, hfirst, statement?, isConstraint, hkind]
      rw [hsplit] at h
      cases i with
      | zero =>
        rw [List.getElem?_cons_zero, Option.some.injEq] at h
        subst h
        exact number_of_ofNode hfirst hkind
      | succ i =>
        have hrest := ih (k + 1) (i := i) h
        rw [show k + (i + 1) = k + 1 + i by omega]
        exact hrest
    · have hsplit : constraints (ofNodesFrom r k (n :: rest)) =
          constraints (ofNodesFrom r k rest) := by
        cases hclass : ofNode r k n with
        | statement t =>
          have ht : t.kind ≠ .constraint := fun ht => hconstraint ⟨t, hclass, ht⟩
          simp [ofNodesFrom, constraints, hclass, statement?, isConstraint, ht]
        | _ => simp [ofNodesFrom, constraints, hclass, List.filterMap_cons, statement?,
            isConstraint]
      rw [hsplit] at h
      exact ih k h

end Classification
end AspAtlas
