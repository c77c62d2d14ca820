import AspAtlas.Node.Render
import AspAtlas.Proofs.Node.Relocation
/-!
The text of a node from the texts of its children, one equation a kind, and
where the terms of a tree stand.
-/
namespace AspAtlas.Node

variable (n m : Node) (ms : List Node) (f g : Field)

/-- A node stands in a tree, right under a field of another one. -/
inductive StandsUnder : Node → Field → Node → Prop
  | child {n t : Node} {f : Field} (h : t ∈ n.items f) : StandsUnder n f t
  | deeper {n m t : Node} {f g : Field} (hm : m ∈ n.items g) (h : StandsUnder m f t) :
      StandsUnder n f t

/-- The kinds of terms. -/
def isTerm : Bool := n.kind ∈
    [.function, .var, .symbolicTerm, .unaryOperation, .binaryOperation, .interval]

/-- The text of the node under a field, empty if there is none. -/
def textOf : String := ((n.node? f).map render).getD ""

/-- The texts of the sequence under a field. -/
def textsOf : List String := (n.sequence f).map render

/-- The texts of a list of arguments, with commas between them. -/
def argumentsText (ms : List Node) : String := ",".intercalate (ms.map render)

section Builders

@[simp] theorem name_withSequence : (n.withSequence f ms).name = n.name := rfl

@[simp] theorem operator_withNode : (n.withNode f m).operator = n.operator := rfl

theorem node?_withNode_of : (n.withNode f m).node? g = if f = g then some m else n.node? g := by
  by_cases h : f = g <;> simp [node?, Children.node?, withNode, withChild, Children.get?_put, h]

@[simp] theorem node?_withSequence :
    (n.withSequence f ms).node? g = if f = g then none else n.node? g := by
  by_cases h : f = g <;> simp [node?, Children.node?, withSequence, withChild, Children.get?_put, h]

@[simp] theorem sequence_withNode : (n.withNode f m).sequence g = if f = g then []
    else n.sequence g := by
  by_cases h : f = g <;>
    simp [sequence, Children.sequence, withNode, withChild, Children.get?_put, h]

@[simp] theorem sequence_withSequence :
    (n.withSequence f ms).sequence g = if f = g then ms else n.sequence g := by
  by_cases h : f = g <;>
    simp [sequence, Children.sequence, withSequence, withChild, Children.get?_put, h]

end Builders

section Texts

variable {n}

/-- The children of a node, rendered. -/
def rendered (n : Node) : Children Rendering := Children.mapItems (fold renderStep) n.fields

theorem render_eq : n.render = renderText n n.rendered := by
  rw [render, fold_eq]
  rfl

theorem text_rendered : ((n.rendered.node? f).map Rendering.text).getD "" = n.textOf f := by
  rw [rendered, Children.node?_mapItems, Option.map_map]
  rfl

theorem joined_rendered (separator : String) :
    joined separator (n.rendered.sequence f) = separator.intercalate (n.textsOf f) := by
  rw [joined, rendered, Children.sequence_mapItems, List.map_map]
  rfl

theorem isEmpty_rendered : (n.rendered.sequence f).isEmpty = (n.sequence f).isEmpty := by
  rw [rendered, Children.sequence_mapItems, List.isEmpty_map]
  rfl

theorem arguments_fold : (m.fold renderStep).arguments = m.textsOf .arguments := by
  rw [fold_eq, renderStep, Children.sequence_mapItems, List.map_map]
  rfl

theorem arguments_rendered :
    ((n.rendered.sequence f).map fun r => ",".intercalate r.arguments) =
      (n.sequence f).map fun m => argumentsText (m.sequence .arguments) := by
  rw [rendered, Children.sequence_mapItems, List.map_map]
  refine List.map_congr_left fun m _ => ?_
  rw [Function.comp_apply, arguments_fold]
  rfl

theorem render_name (h : n.kind = .var ∨ n.kind = .symbolicTerm) : n.render = n.name.getD "" := by
  rcases h with h | h <;> rw [render_eq, renderText, h]

theorem render_function (h : n.kind = .function) : n.render =
    if (n.sequence .arguments).isEmpty && (n.sequence .pool).isEmpty &&
      !(n.name.getD "").isEmpty then n.name.getD ""
    else n.name.getD "" ++ "(" ++ ";".intercalate (argumentsText (n.sequence .arguments) ::
      (n.sequence .pool).map fun m => argumentsText (m.sequence .arguments)) ++ ")" := by
  rw [render_eq, renderText, h]
  simp only [isEmpty_rendered, joined_rendered, arguments_rendered]
  rfl

theorem render_unaryOperation (h : n.kind = .unaryOperation) : n.render =
    if n.operator.getD "" == "|" then "|" ++ n.textOf .argument ++ "|"
    else n.operator.getD "" ++ n.textOf .argument := by
  rw [render_eq, renderText, h]
  simp only [text_rendered]

theorem render_binaryOperation (h : n.kind = .binaryOperation) :
    n.render = n.textOf .left ++ n.operator.getD "" ++ n.textOf .right := by
  rw [render_eq, renderText, h]
  simp only [text_rendered]

theorem render_interval (h : n.kind = .interval) :
    n.render = n.textOf .left ++ ".." ++ n.textOf .right := by
  rw [render_eq, renderText, h]
  simp only [text_rendered]

/-- The text of a condition behind its element, empty if there is none. -/
def conditionText (n : Node) : String :=
  if (n.sequence .condition).isEmpty then "" else ": " ++ ", ".intercalate (n.textsOf .condition)

theorem conditioned_rendered (element : String) :
    conditioned element (n.rendered.sequence .condition) = element ++ n.conditionText := by
  rw [conditioned, isEmpty_rendered, joined_rendered, conditionText]
  split
  · rw [String.append_empty]
  · rw [String.append_assoc]

theorem render_booleanConstant (h : n.kind = .booleanConstant) :
    n.render = "#" ++ n.name.getD "" := by
  rw [render_eq, renderText, h]

theorem render_symbolicAtom (h : n.kind = .symbolicAtom) :
    n.render = n.operator.getD "" ++ n.textOf .symbol := by
  rw [render_eq, renderText, h]
  simp only [text_rendered]

theorem render_literal (h : n.kind = .literal) : n.render = n.sign.lead ++ n.textOf .atom := by
  rw [render_eq, renderText, h]
  simp only [text_rendered]

theorem render_comparison (h : n.kind = .comparison) :
    n.render = n.textOf .term ++ "".intercalate (n.textsOf .guards) := by
  rw [render_eq, renderText, h]
  simp only [text_rendered, joined_rendered]

theorem render_guard (h : n.kind = .guard) : n.render = n.operator.getD "" ++ n.textOf .term := by
  rw [render_eq, renderText, h]
  simp only [text_rendered]

theorem render_conditionalLiteral (h : n.kind = .conditionalLiteral) :
    n.render = n.textOf .literal ++ n.conditionText := by
  rw [render_eq, renderText, h]
  simp only [text_rendered, conditioned_rendered]

theorem render_disjunction (h : n.kind = .disjunction) :
    n.render = "; ".intercalate (n.textsOf .elements) := by
  rw [render_eq, renderText, h]
  simp only [joined_rendered]

/-- The text between braces. -/
def bracedText (n : Node) : String := "\x7b " ++ "; ".intercalate (n.textsOf .elements) ++ " \x7d"

theorem render_aggregate (h : n.kind = .aggregate) :
    n.render = n.textOf .leftGuard ++ (n.bracedText ++ n.textOf .rightGuard) := by
  rw [render_eq, renderText, h]
  simp only [text_rendered, joined_rendered, bracedText, String.append_assoc]

theorem render_bodyAggregate (h : n.kind = .bodyAggregate) :
    n.render = n.textOf .leftGuard ++
      ("#" ++ n.operator.getD "" ++ (n.bracedText ++ n.textOf .rightGuard)) := by
  rw [render_eq, renderText, h]
  simp only [text_rendered, joined_rendered, bracedText, String.append_assoc]

theorem render_bodyAggregateElement (h : n.kind = .bodyAggregateElement) :
    n.render = argumentsText (n.sequence .terms) ++ n.conditionText := by
  rw [render_eq, renderText, h]
  simp only [joined_rendered, conditioned_rendered]
  rfl

end Texts

end AspAtlas.Node
