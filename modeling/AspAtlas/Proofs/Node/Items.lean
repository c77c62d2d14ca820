import AspAtlas.Node.Basic
/-!
The items under a field of a node, and induction over trees.
-/
namespace AspAtlas

namespace Field

theorem eq_of_compare {f g : Field} (h : compare f g = .eq) : f = g := by
  have hcompare : compare f.ctorIdx g.ctorIdx = .eq := h
  have hidx : f.ctorIdx = g.ctorIdx := Std.LawfulEqCmp.eq_of_compare hcompare
  revert hidx
  cases f <;> cases g <;> simp [Field.ctorIdx]

theorem ne_of_compare_gt {f g : Field} (h : compare f g = .gt) : f ≠ g := by
  intro he
  subst he
  simp at h

end Field

namespace Children

variable {α : Type}

theorem get?_put (f g : Field) (c : Child α) (cs : Children α) :
    (put f c cs).get? g = if f = g then some c else cs.get? g := by
  induction cs with
  | nil => simp [put, get?]
  | cons e rest ih =>
    simp only [put]
    split
    · simp [get?]
    · rename_i h
      have he := Field.eq_of_compare h
      by_cases hf : f = g <;> simp_all [get?]
    · rename_i h
      have hne := Field.ne_of_compare_gt h
      by_cases he : e.1 = g
      · have hf : f ≠ g := fun hf => hne (hf.trans he.symm)
        simp [get?, he, hf]
      · simp [get?, he, ih]

/-- The items under a field, none if nothing is stored there. -/
def items (cs : Children α) (f : Field) : List α :=
  match cs.get? f with
  | some c => c.toList
  | none => []

theorem items_put (f g : Field) (c : Child α) (cs : Children α) :
    items (put f c cs) g = if f = g then c.toList else items cs g := by
  by_cases h : f = g <;> simp [items, get?_put, h]

theorem toList_eq_nil_of_isEmpty {c : Child α} (h : c.isEmpty = true) : c.toList = [] := by
  cases c with
  | node item => simp [Child.isEmpty] at h
  | sequence items => simpa [Child.isEmpty, Child.toList] using h

theorem mem_of_get? {f : Field} {c : Child α} {cs : Children α} (h : cs.get? f = some c) :
    (f, c) ∈ cs := by
  induction cs with
  | nil => simp [get?] at h
  | cons e rest ih =>
    simp only [get?] at h
    split at h
    · rename_i he
      obtain ⟨g, d⟩ := e
      simp_all
    · exact List.mem_cons_of_mem _ (ih h)

/-- Walking over the carried children is walking over the fields of the kind. -/
theorem flatMap_carried {β : Type} (kind : NodeKind) (cs : Children α)
    (g : Field → List α → List β) (hg : ∀ f, g f [] = []) :
    ((carried kind cs).flatMap fun e => g e.1 e.2.toList) =
      kind.childFields.flatMap fun f => g f (items cs f) := by
  simp only [carried]
  induction kind.childFields with
  | nil => rfl
  | cons f rest ih =>
    rw [List.filterMap_cons, List.flatMap_cons, ← ih]
    cases hc : get? f cs with
    | none => simp [items, hc, hg]
    | some c =>
      by_cases he : c.isEmpty = true
      · simp [items, hc, he, hg, toList_eq_nil_of_isEmpty he]
      · simp [items, hc, he]

end Children

namespace Node

/-- The items under a field of a node. -/
def items (n : Node) (f : Field) : List Node := Children.items n.fields f

theorem mem_toList_of_mem_items {n m : Node} {f : Field} (h : m ∈ n.items f) :
    ∃ e ∈ n.fields, m ∈ e.2.toList := by
  simp only [items, Children.items] at h
  split at h
  · rename_i c hc
    exact ⟨(f, c), Children.mem_of_get? hc, h⟩
  · simp at h

@[simp] theorem items_withNode (n m : Node) (f g : Field) :
    (n.withNode f m).items g = if f = g then [m] else n.items g := by
  simp [items, withNode, withChild, Children.items_put, Child.toList]

@[simp] theorem items_withSequence (n : Node) (ms : List Node) (f g : Field) :
    (n.withSequence f ms).items g = if f = g then ms else n.items g := by
  simp [items, withSequence, withChild, Children.items_put, Child.toList]

@[simp] theorem items_withNode? (n : Node) (m : Option Node) (f g : Field) (h : n.items f = []) :
    (n.withNode? f m).items g = if f = g then m.toList else n.items g := by
  cases m with
  | none =>
    simp only [withNode?, Option.toList_none]
    split
    · rename_i he
      rw [← he, h]
    · rfl
  | some m => simp [withNode?]

theorem mem_fields_of_mem_children {n : Node} {e : Field × Child Node} (h : e ∈ n.children) :
    e ∈ n.fields := by
  simp only [children, Children.carried, List.mem_filterMap] at h
  obtain ⟨f, -, h⟩ := h
  cases hc : Children.get? f n.fields with
  | none => simp [hc] at h
  | some c =>
    simp only [hc, Option.ite_none_left_eq_some, Option.some.injEq] at h
    exact h.2 ▸ Children.mem_of_get? hc

/-- A property of all trees, shown of each node from everything stored under its fields. -/
theorem induction_fields {motive : Node → Prop}
    (step : ∀ n, (∀ e ∈ n.fields, ∀ m ∈ e.2.toList, motive m) → motive n) (n : Node) :
    motive n := by
  -- one motive each for nodes, field lists, entries, children and sequences
  refine @Node.rec motive (fun cs => ∀ e ∈ cs, ∀ m ∈ e.2.toList, motive m)
    (fun e => ∀ m ∈ e.2.toList, motive m) (fun c => ∀ m ∈ c.toList, motive m)
    (fun ms => ∀ m ∈ ms, motive m) ?_ ?_ ?_ ?_ ?_ ?_ ?_ ?_ n
  · intro kind location name arity operator sign fields ih
    exact step ⟨kind, location, name, arity, operator, sign, fields⟩ ih
  · simp
  · intro e rest he hrest d hd
    rcases List.mem_cons.mp hd with rfl | hd
    · exact he
    · exact hrest d hd
  · intro f c hc
    exact hc
  · intro item hitem m hm
    simp only [Child.toList, List.mem_singleton] at hm
    exact hm ▸ hitem
  · intro items hitems
    exact hitems
  · simp
  · intro item rest hitem hrest m hm
    rcases List.mem_cons.mp hm with rfl | hm
    · exact hitem
    · exact hrest m hm

/-- A property of all trees, shown of each node from its items. -/
theorem induction {motive : Node → Prop}
    (step : ∀ n, (∀ f, ∀ m ∈ n.items f, motive m) → motive n) (n : Node) : motive n := by
  apply induction_fields
  intro n ih
  apply step
  intro f m hm
  obtain ⟨e, he, hme⟩ := mem_toList_of_mem_items hm
  exact ih e he m hme

/-- A walk meets a node, then what stands under its fields, one field after another. -/
theorem visit_eq_items (enter : Node → Bool) (n : Node) :
    n.visit enter =
      n :: if enter n then
        n.kind.childFields.flatMap fun f => (n.items f).flatMap (visit enter) else [] := by
  rw [visit_eq, children, Children.flatMap_carried n.kind n.fields
    (fun _ ms => ms.flatMap (visit enter)) (by simp)]
  rfl

end Node
end AspAtlas
