import AspAtlas.Node.Json
import AspAtlas.Node.Render
import AspAtlas.Proofs.Json.Codec
import AspAtlas.Proofs.Node.Items
import AspAtlas.Statement.Classification
import AspAtlas.Symbol.Variable
/-!
Syntax trees are read back from how they are written. The fields of a node stand in declaration
order, so that storing them one after another gives the list of them again; from there on a tree is
read back because the trees below it are.
-/
namespace AspAtlas

open Json

namespace Children

variable {α : Type} {cs done : Children α}

theorem put_eq_alterEntries (f : Field) (c : Child α) (cs : Children α) :
    put f c cs = OrderedMap.alterEntries f (fun _ => c) cs := by
  induction cs with
  | nil => rfl
  | cons e rest ih =>
    simp only [put, OrderedMap.alterEntries]
    cases h : compare f e.1 with
    | lt => rfl
    | eq => rw [Field.eq_of_compare h]
    | gt => rw [ih]

/-- The fields stand in declaration order, none twice. -/
def InOrder (cs : Children α) : Prop := cs.Pairwise fun a b => compare a.1 b.1 = .lt

theorem InOrder.put (h : cs.InOrder) (f : Field) (c : Child α) : InOrder (cs.put f c) := by
  rw [InOrder, put_eq_alterEntries]
  exact OrderedMap.alterEntries_ascending h

theorem eq_or_mem_of_mem_put {f : Field} {c : Child α} {e : Field × Child α} (h : e ∈ put f c cs) :
    e.2 = c ∨ e ∈ cs := by
  rw [put_eq_alterEntries] at h
  exact OrderedMap.value_of_mem_alterEntries h

/-- Children that are stored in the order of their fields are listed as they were stored. -/
theorem put_of_inOrder {e : Field × Child α} {rest : Children α} (h : InOrder (done ++ e :: rest)) :
    put e.1 e.2 done = done ++ [e] := by
  obtain ⟨-, -, hlt⟩ := List.pairwise_append.mp h
  rw [put_eq_alterEntries]
  exact OrderedMap.alterEntries_of_lt fun d hd => hlt d hd e List.mem_cons_self

end Children

namespace Json

theorem depth_le_depthItems {j : Json} {items : List Json} (h : j ∈ items) :
    j.depth ≤ depthItems items := by
  induction items with
  | nil => cases h
  | cons item rest ih =>
    rw [depthItems]
    rcases List.mem_cons.mp h with rfl | h
    · exact Nat.le_max_left _ _
    · exact Nat.le_trans (ih h) (Nat.le_max_right _ _)

theorem depth_le_depthMembers {key : String} {j : Json} {members : List (String × Json)}
    (h : (key, j) ∈ members) : j.depth ≤ depthMembers members := by
  induction members with
  | nil => cases h
  | cons m rest ih =>
    rw [depthMembers]
    rcases List.mem_cons.mp h with rfl | h
    · exact Nat.le_max_left _ _
    · exact Nat.le_trans (ih h) (Nat.le_max_right _ _)

end Json

namespace Child

variable {j : Json} {c : Child Node}

theorem plain_toJson {c : Child Json} (h : ∀ j ∈ c.toList, Plain j) : Plain c.toJson := by
  cases c with
  | node item => exact .obj (List.forall_mem_singleton.mpr (h item List.mem_cons_self))
  | sequence items => exact .obj (List.forall_mem_singleton.mpr (.arr h))

theorem depth_lt_depth_toJson {c : Child Json} (h : j ∈ c.toList) : j.depth < c.toJson.depth := by
  cases c with
  | node item =>
    obtain rfl := List.mem_singleton.mp h
    simp [toJson, depth, depthMembers]
  | sequence items =>
    have hle : j.depth ≤ depthItems items := depth_le_depthItems h
    simp only [toJson, depth, depthMembers]
    omega

end Child

/-- A tree with numbers of 64 bits, in which the fields of every node stand in declaration order. -/
inductive Node.Fits : Node → Prop
  | intro {n : Node} (location : n.location.Fits) (arity : ∀ k, n.arity = some k → IsWord k)
      (fields : Children.InOrder n.fields)
      (items : ∀ e ∈ n.fields, ∀ m ∈ e.2.toList, Fits m) : Fits n

namespace Json.Codec

theorem nodeKind : Codec (fun k : NodeKind => str k.name)
    (choice? NodeKind.ofName?) fun _ => True :=
  choice fun k => by cases k <;> simp [NodeKind.ofName?, NodeKind.all, NodeKind.name]

theorem sign : Codec (fun s : Sign => str s.name) (choice? Sign.ofName?) fun _ => True :=
  choice fun s => by cases s <;> simp [Sign.ofName?, Sign.all, Sign.name]

end Json.Codec

theorem Field.ofName?_name (f : Field) : ofName? f.name = some f := by
  cases f <;> simp [ofName?, all, name]

namespace Node

variable {read? : Json → Option Node} {n : Node} {c : Child Node}

/-- Children by field, written. -/
def fieldsToJson (cs : Children Node) : Json :=
  .obj (cs.map fun e => (e.1.name, (e.2.map toJson).toJson))

/-- The members of a written node. -/
def members (n : Node) : List (String × Json) :=
  [("kind", .str n.kind.name), ("location", Json.ofLocation n.location)]
    ++ Json.present "name" Json.str n.name
    ++ Json.present "arity" Json.nat n.arity
    ++ Json.present "operator" Json.str n.operator
    ++ [("sign", .str n.sign.name), ("fields", fieldsToJson n.fields)]

theorem toJson_eq (n : Node) : n.toJson = .obj n.members := by
  rw [toJson, fold_eq, jsonStep, members, fieldsToJson, Children.mapItems, List.map_map]
  rfl

theorem childOfJson?_toJson (h : ∀ m ∈ c.toList, read? m.toJson = some m) :
    childOfJson? read? (c.map toJson).toJson = some c := by
  cases c with
  | node item =>
    have hitem : read? item.toJson = some item := h item List.mem_cons_self
    simp [Child.map, Child.toJson, childOfJson?, hitem]
  | sequence items =>
    have hitems : (items.map toJson).mapM read? = some items := Codec.mapM_map h
    simp [Child.map, Child.toJson, childOfJson?, list?, hitems]

theorem exists_read_of_childOfJson? {j : Json} (h : childOfJson? read? j = some c) :
    ∀ m ∈ c.toList, ∃ i, read? i = some m := by
  rw [childOfJson?.eq_def] at h
  split at h
  · obtain ⟨item, hitem, rfl⟩ := Option.map_eq_some_iff.mp h
    exact List.forall_mem_singleton.mpr ⟨_, hitem⟩
  · rename_i items
    obtain ⟨ms, hms, rfl⟩ := Option.map_eq_some_iff.mp h
    intro m hm
    cases items <;> simp only [list?, reduceCtorEq] at hms
    obtain ⟨i, -, hi⟩ := Codec.exists_read_of_mapM hms m hm
    exact ⟨i, hi⟩
  · cases h

/-- Reading fields in declaration order stores them as they are. -/
theorem foldlM_put {step : Children Node → String × Json → Option (Children Node)}
    {write : Field × Child Node → String × Json} {cs done : Children Node}
    (hstep : ∀ e ∈ cs, ∀ fields, step fields (write e) = some (fields.put e.1 e.2))
    (h : Children.InOrder (done ++ cs)) : (cs.map write).foldlM step done = some (done ++ cs) := by
  induction cs generalizing done with
  | nil => simp
  | cons e rest ih =>
    obtain ⟨hfirst, hrest⟩ := List.forall_mem_cons.mp hstep
    have hdone : done ++ e :: rest = (done ++ [e]) ++ rest := by simp
    rw [List.map_cons, List.foldlM_cons, hfirst, Option.bind_eq_bind, Option.bind_some,
      Children.put_of_inOrder h, ih hrest (hdone ▸ h), hdone]

theorem fieldsOfJson?_fieldsToJson {cs : Children Node} (h : cs.InOrder)
    (hread : ∀ e ∈ cs, ∀ m ∈ e.2.toList, read? m.toJson = some m) :
    fieldsOfJson? read? (fieldsToJson cs) = some cs := by
  rw [fieldsToJson, fieldsOfJson?]
  rw [← List.nil_append cs] at h
  refine foldlM_put (fun e he fields => ?_) h
  have hchild := childOfJson?_toJson (hread e he)
  simp [Field.ofName?_name, hchild]

/-- What is kept by every field that is read holds of all of them. -/
theorem of_foldlM {α β : Type} {P : β → Prop} {step : β → α → Option β}
    (hstep : ∀ {b a b'}, P b → step b a = some b' → P b') {xs : List α} {first last : β}
    (hfirst : P first) (h : xs.foldlM step first = some last) : P last := by
  induction xs generalizing first with
  | nil =>
    cases h
    exact hfirst
  | cons x rest ih =>
    obtain ⟨next, hnext, hrest⟩ := Option.bind_eq_some_iff.mp h
    exact ih (hstep hfirst hnext) hrest

theorem of_fieldsOfJson? {j : Json} {cs : Children Node} {fits : Node → Prop}
    (hread : ∀ i m, read? i = some m → fits m) (h : fieldsOfJson? read? j = some cs) :
    cs.InOrder ∧ ∀ e ∈ cs, ∀ m ∈ e.2.toList, fits m := by
  cases j <;> simp only [fieldsOfJson?, reduceCtorEq] at h
  refine of_foldlM (P := fun cs : Children Node => cs.InOrder ∧ ∀ e ∈ cs, ∀ m ∈ e.2.toList, fits m)
    (fun {done m cs} hdone hstep => ?_) ⟨.nil, by simp⟩ h
  simp only [↓bind_eq_some_iff, Option.some.injEq] at hstep
  obtain ⟨f, -, c, hc, rfl⟩ := hstep
  refine ⟨hdone.1.put f c, fun e he => ?_⟩
  rcases Children.eq_or_mem_of_mem_put he with rfl | he
  · intro m hm
    obtain ⟨i, hi⟩ := exists_read_of_childOfJson? hc m hm
    exact hread i m hi
  · exact hdone.2 e he

theorem plain_toJson (n : Node) : Plain n.toJson := by
  induction n using induction_fields with
  | step n ih =>
    have hfields : Plain (fieldsToJson n.fields) := by
      refine .obj (List.forall_mem_map.mpr fun e he => Child.plain_toJson ?_)
      rw [Child.toList_map]
      exact List.forall_mem_map.mpr (ih e he)
    rw [toJson_eq]
    refine .obj ?_
    simp only [members, List.forall_mem_append]
    refine ⟨⟨⟨⟨?_, Codec.text.plain_present _ _⟩, Codec.nat.plain_present _ _⟩,
      Codec.text.plain_present _ _⟩, ?_⟩
    · simp [Codec.nodeKind.plain, Codec.location.plain]
    · simp [Codec.sign.plain, hfields]

/-- What stands under a field is written inside the node. -/
theorem depth_lt_depth_toJson {m : Node} {e : Field × Child Node} (he : e ∈ n.fields)
    (hm : m ∈ e.2.toList) : m.toJson.depth < n.toJson.depth := by
  have hchild : m.toJson.depth < (e.2.map toJson).toJson.depth := by
    refine Child.depth_lt_depth_toJson ?_
    rw [Child.toList_map]
    exact List.mem_map_of_mem hm
  have hmember : (e.2.map toJson).toJson.depth < (fieldsToJson n.fields).depth := by
    rw [fieldsToJson, depth]
    exact Nat.lt_succ_of_le (depth_le_depthMembers (List.mem_map.mpr ⟨e, he, rfl⟩))
  have hfields : (fieldsToJson n.fields).depth < n.toJson.depth := by
    rw [toJson_eq, depth]
    have hmember : ("fields", fieldsToJson n.fields) ∈ n.members := by simp [members]
    exact Nat.lt_succ_of_le (depth_le_depthMembers hmember)
  omega

/-- A tree is read back by every reader that is deep enough. -/
theorem ofJsonWithin?_toJson (h : n.Fits) {k : Nat} (hk : n.toJson.depth < k) :
    ofJsonWithin? k n.toJson = some n := by
  induction h generalizing k with
  | @intro n location arity fields items ih =>
    obtain ⟨k, rfl⟩ : ∃ i, k = i + 1 := ⟨k - 1, by omega⟩
    have hfields : fieldsOfJson? (ofJsonWithin? k) (fieldsToJson n.fields) = some n.fields := by
      refine fieldsOfJson?_fieldsToJson fields fun e he m hm => ih e he m hm ?_
      have hlt := depth_lt_depth_toJson he hm
      omega
    have hrecord : record? jsonKeys n.toJson = some ⟨n.members, false⟩ := by
      rw [toJson_eq]
      refine record?_obj (by simp [jsonKeys]) ?_
      simp only [members, List.map_append]
      exact ((((List.Sublist.refl _).append (keys_present _ _ _)).append
        (keys_present _ _ _)).append (keys_present _ _ _)).append (.refl _)
    simp only [ofJsonWithin?, ↓bind_eq_some_iff, Option.some.injEq]
    refine ⟨_, hrecord, n.kind, Codec.nodeKind.read_field trivial ?_, n.location,
      Codec.location.read_field location ?_, n.name, Codec.text.read_present (by simp) (by simp) ?_,
      n.arity, Codec.nat.read_present (by simp [Json.nat]) arity ?_, n.operator,
      Codec.text.read_present (by simp) (by simp) ?_, n.sign,
      Codec.sign.read_defaulted trivial (.inl ?_), n.fields, ?_, by cases n; rfl⟩
    case refine_7 => simp [Record.defaulted, members, hfields]
    all_goals simp [members]

theorem fits_of_ofJsonWithin? {k : Nat} {j : Json} (h : ofJsonWithin? k j = some n) : n.Fits := by
  induction k generalizing j n with
  | zero => cases h
  | succ k ih =>
    simp only [ofJsonWithin?, ↓bind_eq_some_iff, Option.some.injEq] at h
    obtain ⟨r, -, kind, -, place, hplace, name, -, arity, harity, operator, -, sign, -,
      fields, hfields, rfl⟩ := h
    have hcodec := Codec.nat.nullable fun n => by simp [Json.nat]
    have hread : Children.InOrder fields ∧ ∀ e ∈ fields, ∀ m ∈ e.2.toList, m.Fits := by
      rw [Record.defaulted] at hfields
      split at hfields
      · exact of_fieldsOfJson? (fun _ _ => ih) hfields
      · cases hfields
        exact ⟨.nil, by simp⟩
    exact ⟨Codec.location.fits_field hplace, hcodec.fits_defaulted (by simp) harity,
      hread.1, hread.2⟩

end Node

/-- A tree is read back from what it is written as, and every tree that is read can be written. -/
theorem Json.Codec.tree : Codec Node.toJson Node.ofJson? Node.Fits where
  plain := Node.plain_toJson
  read_write h := Node.ofJsonWithin?_toJson h (Nat.lt_succ_self _)
  fits_of_read h := Node.fits_of_ofJsonWithin? h

namespace Node

/-- The text of a tree. -/
def print (layout : Layout) (n : Node) : String := n.toJson.print layout

/-- The tree that a text stands for. -/
def parse? (text : String) : Option Node := (Json.parse? text).bind ofJson?

theorem parse?_print {n : Node} (h : n.Fits) (layout : Layout) : parse? (n.print layout) = some n :=
  Codec.tree.parse?_print h layout

theorem fits_of_parse? {text : String} {n : Node} (h : parse? text = some n) : n.Fits := by
  obtain ⟨j, -, hj⟩ := Option.bind_eq_some_iff.mp h
  exact Codec.tree.fits_of_read hj

/-- Every tree is read back from its text, whatever the layout, and so is every tree
that comes from elsewhere as a text. What is told from the trees that were read back is
what is told from the trees. -/
theorem parse?_print_keeps_trees :
    (∀ (n : Node) (layout : Layout), n.Fits → parse? (n.print layout) = some n) ∧
    (∀ (text : String) (n : Node) (layout : Layout), parse? text = some n →
      parse? (n.print layout) = parse? text) ∧
    ∀ (nodes : List Node) (layout : Layout), (∀ n ∈ nodes, n.Fits) →
      ∃ decoded, (nodes.map (print layout)).mapM parse? = some decoded ∧
        decoded.map render = nodes.map render ∧
        (∀ registry, Classification.ofNodes registry decoded =
          Classification.ofNodes registry nodes) ∧
        ∀ file directives directiveName,
          SymbolRegistry.extract decoded file directives directiveName =
            SymbolRegistry.extract nodes file directives directiveName ∧
          VariableRegistry.extract decoded file directives directiveName =
            VariableRegistry.extract nodes file directives directiveName := by
  refine ⟨fun n layout h => parse?_print h layout, fun text n layout h => ?_,
    fun nodes layout h => ?_⟩
  · rw [h, parse?_print (fits_of_parse? h)]
  · have hdecoded : (nodes.map (print layout)).mapM parse? = some nodes :=
      Codec.mapM_map fun n hn => parse?_print (h n hn) layout
    exact ⟨nodes, hdecoded, rfl, fun _ => rfl, fun _ _ _ => ⟨rfl, rfl⟩⟩

/-- A place up to the last column there can be, in a file whose name has to be escaped. -/
def farPlace : Location := ⟨⟨"ä \"b\".lp"⟩, ⟨0, 0⟩, ⟨1, 18446744073709551615⟩⟩

/-- A tree with fields that its kind does not list, an empty sequence and names to be escaped. -/
def oddTree : Node where
  kind := .var
  location := farPlace
  name := some "\\\u0001\n"
  arity := some 0
  sign := .doubleNegation
  fields := [(.body, .sequence []),
    (.guards, .sequence [⟨.rule, farPlace, none, none, some "", .none, []⟩]),
    (.right, .node ⟨.interval, farPlace, some "\u007f", none, none, .negation, []⟩)]

theorem fits_farPlace : farPlace.Fits :=
  ⟨⟨by simp [farPlace, IsWord], by simp [farPlace, IsWord]⟩,
    ⟨by simp [farPlace, IsWord], by simp [farPlace, IsWord]⟩⟩

theorem fits_oddTree : oddTree.Fits := by
  have hleaf {n : Node} (hplace : n.location = farPlace) (harity : n.arity = none)
      (hfields : n.fields = []) : n.Fits := by
    refine .intro (hplace ▸ fits_farPlace) (by simp [harity]) ?_ (by simp [hfields])
    rw [hfields]
    exact .nil
  refine .intro fits_farPlace (by simp [oddTree, IsWord]) ?_ ?_
  · simp only [oddTree, Children.InOrder]
    decide
  · simp only [oddTree, List.forall_mem_cons, Child.toList]
    simp [hleaf]

theorem parse?_print_keeps_trees_of_odd :
    oddTree.Fits ∧ parse? (oddTree.print .pretty) = some oddTree ∧
      parse? (oddTree.print .compact) = parse? (oddTree.print .pretty) ∧
      ∃ decoded, [oddTree.print .compact].mapM parse? = some decoded ∧
        decoded.map render = [oddTree.render] := by
  obtain ⟨hread, hecho, htold⟩ := parse?_print_keeps_trees
  have hpretty : parse? (oddTree.print .pretty) = some oddTree := hread oddTree .pretty fits_oddTree
  obtain ⟨decoded, hdecoded, hrender, -, -⟩ :=
    htold [oddTree] .compact (List.forall_mem_singleton.mpr fits_oddTree)
  exact ⟨fits_oddTree, hpretty, hecho _ oddTree .compact hpretty, decoded, hdecoded, hrender⟩

end Node
end AspAtlas
