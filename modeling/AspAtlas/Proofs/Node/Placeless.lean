import AspAtlas.Proofs.Node.Relocation
import AspAtlas.Surface.Lowering
/-!
Trees up to their locations: what two constructs lower to when only their places in the text differ.
-/
namespace AspAtlas.Node

/-- The tree without its locations. -/
def placeless : Node → Node :=
  fold fun n below => { n with location := default, fields := below }

theorem placeless_eq (n : Node) :
    n.placeless = { n with
      location := default, fields := Children.mapItems placeless n.fields } := by
  rw [placeless, fold_eq]

variable (n : Node)

@[simp] theorem kind_placeless : n.placeless.kind = n.kind := by rw [placeless_eq]

@[simp] theorem sequence_placeless (f : Field) :
    n.placeless.sequence f = (n.sequence f).map placeless := by
  rw [placeless_eq]
  exact Children.sequence_mapItems placeless f n.fields

@[simp] theorem node?_placeless (f : Field) : n.placeless.node? f = (n.node? f).map placeless := by
  rw [placeless_eq]
  exact Children.node?_mapItems placeless f n.fields

@[simp] theorem placeless_leaf (kind : NodeKind) (location : Location) (name : Option String)
    (arity : Option Nat) (operator : Option String) (sign : Sign) :
    placeless ⟨kind, location, name, arity, operator, sign, []⟩ =
      ⟨kind, default, name, arity, operator, sign, []⟩ := by
  rw [placeless_eq]
  rfl

theorem placeless_withOperator (operator : Option String) :
    placeless { n with operator } = { n.placeless with operator } := by
  rw [placeless_eq, placeless_eq n]

theorem placeless_withName (name : Option String) :
    placeless { n with name } = { n.placeless with name } := by
  rw [placeless_eq, placeless_eq n]

theorem placeless_withArity (arity : Option Nat) :
    placeless { n with arity } = { n.placeless with arity } := by
  rw [placeless_eq, placeless_eq n]

theorem render_placeless : n.placeless.render = n.render := by
  have hfold := fold_moved n placeless_eq renderStep fun _ _ _ _ => rfl
  rw [render, hfold, render]

@[simp] theorem placeless_withNode (f : Field) (m : Node) :
    (n.withNode f m).placeless = n.placeless.withNode f m.placeless := by
  simp [placeless_eq, withNode, withChild, Children.mapItems_put, Child.map]

@[simp] theorem placeless_withSequence (f : Field) (ms : List Node) :
    (n.withSequence f ms).placeless = n.placeless.withSequence f (ms.map placeless) := by
  simp [placeless_eq, withSequence, withChild, Children.mapItems_put, Child.map]

@[simp] theorem placeless_withNode? (f : Field) (m : Option Node) :
    (n.withNode? f m).placeless = n.placeless.withNode? f (m.map placeless) := by
  cases m <;> simp [withNode?]

end AspAtlas.Node

namespace AspAtlas.Surface

variable {file : Path}

@[simp] theorem placeless_node (span : Span) (kind : NodeKind) :
    (span.node file kind).placeless = { kind, location := default } := by
  simp [Span.node]

@[simp] theorem placeless_named (span : Span) (kind : NodeKind) (name : String) :
    (named file span kind name).placeless = { kind, location := default, name := some name } := by
  simp [named, Span.node]

/-- Some lists of argument trees without their locations. -/
def placelessPair (arguments : List Node × List Node) : List Node × List Node :=
  (arguments.1.map Node.placeless, arguments.2.map Node.placeless)

theorem placeless_applied {span span' : Span} {name : String}
    {arguments arguments' : List Node × List Node}
    (h : placelessPair arguments = placelessPair arguments') :
    (applied file span name arguments).placeless =
      (applied file span' name arguments').placeless := by
  simp only [placelessPair, Prod.mk.injEq] at h
  simp [applied, Span.node, h.1, h.2]

theorem placeless_tupled {span span' : Span} {arguments arguments' : List Node × List Node}
    (h : placelessPair arguments = placelessPair arguments') :
    (tupled file span arguments).placeless = (tupled file span' arguments').placeless := by
  obtain ⟨first, others⟩ := arguments
  obtain ⟨first', others'⟩ := arguments'
  have hboth : (applied file span "" _).placeless = (applied file span' "" _).placeless :=
    placeless_applied h
  simp only [placelessPair, Prod.mk.injEq] at h
  match first, others, first', others', h with
  | [a], [], [b], [], ⟨h, _⟩ => simpa [tupled] using h
  | [], _, [], _, _ => exact hboth
  | [_], _ :: _, [_], _ :: _, _ => exact hboth
  | _ :: _ :: _, _, _ :: _ :: _, _, _ => exact hboth
  | [_], _, _ :: _ :: _, _, ⟨h, _⟩ => simp at h
  | _ :: _ :: _, _, [_], _, ⟨h, _⟩ => simp at h

theorem placeless_joinTerms {left left' right right' : Node} (operator : Punct)
    (hleft : left.placeless = left'.placeless) (hright : right.placeless = right'.placeless) :
    (joinTerms file left operator right).placeless =
      (joinTerms file left' operator right').placeless := by
  by_cases h : operator = .dots <;> simp [joinTerms, h, hleft, hright]

@[simp] theorem placeless_unary (location : Location) (operator : String) (argument : Node) :
    (unary location operator argument).placeless = unary default operator argument.placeless := by
  simp [unary]

end AspAtlas.Surface
