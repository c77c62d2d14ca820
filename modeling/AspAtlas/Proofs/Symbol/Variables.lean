import AspAtlas.Proofs.Ordered.Map
import AspAtlas.Proofs.Surface.Variables
import AspAtlas.Proofs.Symbol.SourceOrder
import AspAtlas.Symbol.Variable
/-!
The variables of a file in its registry. Each has one entry, with all its places in the order of the
walk; that is the order of the text as long as no weak constraint has the variable both in its body
and in the weight behind it.
-/
namespace AspAtlas

namespace VariableRegistry

/-- A registry with some occurrences, each name documented in one way. -/
def ofList (document : String → Option String) (occurrences : List (String × Location)) :
    VariableRegistry :=
  occurrences.foldl (fun r o => r.add o.1 o.2 (document o.1)) {}

/-- The entry of a name with these places. -/
def entryFor (document : String → Option String) (name : String) : List Location → Option Variable
  | [] => none
  | first :: rest => some ⟨name, first, document name, first :: rest⟩

/-- The places of a name among some occurrences. -/
def placesOf (name : String) (occurrences : List (String × Location)) : List Location :=
  (occurrences.filter fun o => o.1 == name).map Prod.snd

variable {document : String → Option String}

/-- The entry of a name with one more place. -/
def extend (document : String → Option String) (o : String × Location)
    (present : Option Variable) : Variable :=
  present.elim ⟨o.1, o.2, document o.1, [o.2]⟩
    fun v => { v with occurrences := v.occurrences ++ [o.2] }

theorem byName_add (r : VariableRegistry) (o : String × Location) :
    (r.add o.1 o.2 (document o.1)).byName = r.byName.alter o.1 (extend document o) := by
  rw [add]
  congr
  funext present
  cases present <;> rfl

theorem foldl_extend {name : String} {occurrences : List (String × Location)}
    (h : ∀ o ∈ occurrences, o.1 = name) :
    occurrences.foldl (fun present o => some (extend document o present)) none =
      entryFor document name (occurrences.map Prod.snd) := by
  induction occurrences using List.reverseRecOn with
  | nil => rfl
  | append_singleton occurrences o ih =>
    have ho : o.1 = name := h o (by simp)
    subst ho
    rw [List.foldl_append, ih fun o' ho' => h o' (List.mem_append_left _ ho'), List.map_append]
    cases occurrences.map Prod.snd <;> rfl

/-- The registry has for each name the entry with its places, in their order. -/
theorem get?_ofList (occurrences : List (String × Location)) (name : String) :
    (ofList document occurrences).get? name =
      entryFor document name (placesOf name occurrences) := by
  have hbyName : (ofList document occurrences).byName =
      occurrences.foldl (fun m o => m.alter o.1 (extend document o)) .empty :=
    (List.foldl_hom byName fun r o => (byName_add r o).symm).symm
  rw [get?, hbyName, OrderedMap.get?_foldl_alter Prod.fst (extend document),
    OrderedMap.get?_empty, placesOf]
  exact foldl_extend fun o ho => beq_iff_eq.mp (List.mem_filter.mp ho).2

/-- A name has one entry, the one that is found under it. -/
theorem toList_filter_name (occurrences : List (String × Location)) (name : String) :
    ((ofList document occurrences).toList.filter fun e => e.name == name) =
      ((ofList document occurrences).get? name).toList := by
  have hkey : ∀ e ∈ (ofList document occurrences).byName.entries, e.2.name = e.1 := by
    intro e he
    have hfound : (ofList document occurrences).get? e.1 = some e.2 :=
      OrderedMap.lookup_of_mem (ofList document occurrences).byName.ascending he
    rw [get?_ofList] at hfound
    cases hplaces : placesOf e.1 occurrences with
    | nil => simp [hplaces, entryFor] at hfound
    | cons first rest =>
      rw [hplaces, entryFor, Option.some.injEq] at hfound
      rw [← hfound]
  rw [toList, OrderedMap.values, List.filter_map]
  have hsame : (ofList document occurrences).byName.entries.filter
      ((fun e => e.name == name) ∘ Prod.snd) =
        (ofList document occurrences).byName.entries.filter fun e => e.1 == name :=
    List.filter_congr fun e he => by rw [Function.comp_apply, hkey e he]
  rw [hsame]
  exact OrderedMap.filter_key (ofList document occurrences).byName.ascending name

/-- The places of a variable in a tree are among its occurrences those with its name. -/
theorem placesOf_occurrencesIn (name : String) (n : Node) :
    placesOf name (occurrencesIn n) = n.placesOf name := by
  rw [placesOf, occurrencesIn, Node.placesOf]
  induction n.visit fun _ => true with
  | nil => rfl
  | cons m rest ih =>
    rw [List.filterMap_cons, List.filter_cons]
    by_cases hkind : m.kind = .var
    · cases hname : m.name with
      | none => simpa [hkind, hname] using ih
      | some own => by_cases he : own = name <;> simpa [hkind, hname, he] using ih
    · simpa [hkind] using ih

theorem placesOf_flatMap (name : String) (nodes : List Node) :
    placesOf name (nodes.flatMap occurrencesIn) = nodes.flatMap (Node.placesOf name) := by
  rw [placesOf, List.filter_flatMap, List.map_flatMap]
  exact List.flatMap_congr fun n _ => placesOf_occurrencesIn name n

/-- The registry of a file has for each name the entry with its places in
the statements of the file. -/
theorem get?_extract (nodes : List Node) (file : Path) (directives : DirectiveIndex)
    (directiveName name : String) :
    (extract nodes file directives directiveName).get? name =
      entryFor (directives.description? directiveName) name
        ((nodes.filter fun n => n.location.isIn file).flatMap (Node.placesOf name)) := by
  rw [← placesOf_flatMap, ← get?_ofList]
  rfl

/-- In a program that was read a variable of a file has one entry. It lists all places of the
variable, each once, and is located at the first place that it lists. The places are listed in the
order of the text exactly if no weak constraint has the variable in its body and in its weight; and
the entry is located at the first place in the text exactly if the first statement with the variable
is none that has. -/
theorem extract_lists_places {r : ProgramReader} {root : Path} {text : String}
    {source : ParsedSource}
    (h : r.readText root text = .ok source) (directives : DirectiveIndex) (directiveName : String)
    {f : SourceFile} (hf : f ∈ source.files) (name : String) :
    let own := source.nodes.filter fun n => n.location.isIn f.path
    let registry := extract source.nodes f.path directives directiveName
    let places := own.flatMap (Node.placesOf name)
    (registry.toList.filter fun v => v.name == name) = (registry.get? name).toList ∧
      (registry.get? name = none ↔ places = []) ∧
      ∀ v, registry.get? name = some v →
        v.name = name ∧ v.documentation = directives.description? directiveName name ∧
          v.occurrences = places ∧ places.head? = some v.location ∧
          places.Pairwise (fun l m => l.Before m ∨ m.Before l) ∧
          (places.Pairwise Location.Before ↔ ∀ n ∈ own, ¬ n.TurnsBack name) ∧
          ∀ before n behind, own = before ++ n :: behind → (∀ m ∈ before, m.placesOf name = []) →
            n.placesOf name ≠ [] →
              ((∀ l ∈ places, l = v.location ∨ v.location.Before l) ↔ ¬ n.TurnsBack name) := by
  intro own registry places
  obtain ⟨_, _, hspliced⟩ := ProgramReader.exists_spliced h
  obtain ⟨t, items, -, -, hparse, hnodes, -⟩ := hspliced.statements f hf
  have harranged : ∀ n ∈ own, Surface.Arranged f.path (Node.placesOf name) Surface.PlaceIn n := by
    intro n hn
    have hn : n ∈ statementsOf items := hnodes ▸ hn
    exact arranged_of_parseItems (Surface.gathers_places name f.path) hparse n hn
  obtain ⟨lo, hi, htrees⟩ := nested_of_readText h hf
  have hapart : own.Pairwise fun a b => a.location.Before b.location :=
    htrees.pairwise_apart (Surface.placed_spanned f.path)
  have hget : registry.get? name = entryFor (directives.description? directiveName) name places :=
    get?_extract source.nodes f.path directives directiveName name
  refine ⟨toList_filter_name _ name, ?_, ?_⟩
  · rw [hget]
    cases places <;> simp [entryFor]
  · intro v hv
    rw [hget] at hv
    have hhead : places.head? = some v.location ∧ v.name = name ∧
        v.documentation = directives.description? directiveName name ∧ v.occurrences = places := by
      cases hplaces : places with
      | nil => simp [hplaces, entryFor] at hv
      | cons first rest =>
        rw [hplaces, entryFor, Option.some.injEq] at hv
        rw [← hv]
        exact ⟨rfl, rfl, rfl, rfl⟩
    obtain ⟨hhead, hname, hdocumentation, hoccurrences⟩ := hhead
    refine ⟨hname, hdocumentation, hoccurrences, hhead, Surface.places_apart harranged hapart,
      Surface.places_ordered_iff harranged hapart, ?_⟩
    intro before n behind hsplit hbefore hne
    exact Surface.head_first_iff harranged hapart hsplit hbefore hne hhead

/-- A variable of a rule is located in the head, in front of its places in the body. -/
theorem extract_lists_places_of_rule :
    ∃ source v,
      (ProgramReader.mk (.ofFiles []) 100).readText ⟨"p.lp"⟩ "p(X) :- q(X), X > 1." = .ok source ∧
      (extract source.nodes ⟨"p.lp"⟩ {} "term").get? "X" = some v ∧ v.location.begin = ⟨1, 3⟩ ∧
      v.occurrences.map (·.begin) = [⟨1, 3⟩, ⟨1, 11⟩, ⟨1, 15⟩] ∧
      v.occurrences.Pairwise Location.Before := by
  have htext : (parseItems ⟨"p.lp"⟩ "p(X) :- q(X), X > 1.").toOption.map (fun items =>
      (targetsOf items,
        (((statementsOf items).filter fun n => n.location.isIn ⟨"p.lp"⟩).flatMap
          (Node.placesOf "X")).map (·.begin),
        (statementsOf items).all fun n => n.kind != .minimize)) =
        some ([], [⟨1, 3⟩, ⟨1, 11⟩, ⟨1, 15⟩], true) := by
    decide +kernel
  cases hparse : parseItems ⟨"p.lp"⟩ "p(X) :- q(X), X > 1." with
  | error e => simp [hparse, Except.toOption] at htext
  | ok items =>
    simp only [hparse, Except.toOption, Option.map_some, Option.some.injEq, Prod.mk.injEq] at htext
    obtain ⟨hnone, hplaces, hkinds⟩ := htext
    have hread := ProgramReader.readText_of_targetsOf_eq_nil ⟨.ofFiles [], 100⟩ hparse hnone
    obtain ⟨-, hempty, hentry⟩ :=
      extract_lists_places hread {} "term" (ProgramReader.root_mem_files hread) "X"
    cases hv : (extract (statementsOf items) ⟨"p.lp"⟩ {} "term").get? "X" with
    | none =>
      have hno := congrArg (List.map Location.begin) (hempty.mp hv)
      exact absurd (hplaces.symm.trans hno) (List.cons_ne_nil _ _)
    | some v =>
      obtain ⟨-, -, hoccurrences, hhead, -, hordered, -⟩ := hentry v hv
      have hbegins := (congrArg (List.map Location.begin) hoccurrences).trans hplaces
      refine ⟨_, v, hread, hv, ?_, hbegins, ?_⟩
      · have hfirst := congrArg (Option.map Location.begin) hhead
        rw [← hoccurrences, ← List.head?_map, hbegins] at hfirst
        exact (Option.some.inj hfirst).symm
      · rw [hoccurrences]
        refine hordered.mpr fun n hn hback => ?_
        have hkind := List.all_eq_true.mp hkinds n (List.mem_filter.mp hn).1
        exact absurd hback.1 (bne_iff_ne.mp hkind)

/-- The weight of a weak constraint is walked first, so that a variable in it is located behind its
place in the body. -/
theorem weight_walked_before_body :
    ∃ source v,
      (ProgramReader.mk (.ofFiles []) 100).readText ⟨"p.lp"⟩ ":~ p(X). [X@1]" = .ok source ∧
      (extract source.nodes ⟨"p.lp"⟩ {} "term").get? "X" = some v ∧ v.location.begin = ⟨1, 11⟩ ∧
      v.occurrences.map (·.begin) = [⟨1, 11⟩, ⟨1, 6⟩] := by
  have htext : (parseItems ⟨"p.lp"⟩ ":~ p(X). [X@1]").toOption.map (fun items =>
      (targetsOf items,
        (entryFor (fun _ => none) "X" (((statementsOf items).filter fun n =>
          n.location.isIn ⟨"p.lp"⟩).flatMap (Node.placesOf "X"))).map fun v =>
            (v.location.begin, v.occurrences.map (·.begin)))) =
        some ([], some (⟨1, 11⟩, [⟨1, 11⟩, ⟨1, 6⟩])) := by
    decide +kernel
  cases hparse : parseItems ⟨"p.lp"⟩ ":~ p(X). [X@1]" with
  | error e => simp [hparse, Except.toOption] at htext
  | ok items =>
    simp only [hparse, Except.toOption, Option.map_some, Option.some.injEq, Prod.mk.injEq] at htext
    obtain ⟨hnone, hentry⟩ := htext
    have hread := ProgramReader.readText_of_targetsOf_eq_nil ⟨.ofFiles [], 100⟩ hparse hnone
    obtain ⟨v, hv, hfound⟩ := Option.map_eq_some_iff.mp hentry
    obtain ⟨hlocation, hoccurrences⟩ := Prod.mk.inj hfound
    refine ⟨_, v, hread, ?_, hlocation, hoccurrences⟩
    rw [get?_extract]
    exact hv

end VariableRegistry
end AspAtlas
