import AspAtlas.Proofs.Path.Components
import AspAtlas.Proofs.Surface.Relocation
/-!
Depth-first traversal of includes. It is a function of the items of all files: it exists, it is
unique, it meets no file twice, and it misses none that can be reached.
-/
namespace AspAtlas

open Surface (Item)

/-- An include that is followed: the file it stands in, and the one it leads to. -/
structure Inclusion where
  file : Path
  included : Path

namespace Inclusion

/-- What tells included files apart. -/
def key (v : Inclusion) : List Component := v.included.components

end Inclusion

/-- Goes through the items of a file in order. An include that leads to a file not among `seen` is
followed at once, before the next item; the files reached on the way count as seen from then on. -/
inductive Traverses (itemsOf : Path → List Item) :
    List (List Component) → Path → List Item → List Inclusion → List Node → Prop
  | done {seen : List (List Component)} {file : Path} : Traverses itemsOf seen file [] [] []
  | statement {seen : List (List Component)} {file : Path} {n : Node} {rest : List Item}
      {reached : List Inclusion} {nodes : List Node}
      (h : Traverses itemsOf seen file rest reached nodes) :
      Traverses itemsOf seen file (.statement n :: rest) reached (n :: nodes)
  | again {seen : List (List Component)} {file : Path} {target : String} {location : Location}
      {rest : List Item} {reached : List Inclusion} {nodes : List Node}
      (hs : (resolveInclude file target).components ∈ seen)
      (h : Traverses itemsOf seen file rest reached nodes) :
      Traverses itemsOf seen file (.includes target location :: rest) reached nodes
  | first {seen : List (List Component)} {file : Path} {target : String} {location : Location}
      {rest : List Item} {inner outer : List Inclusion} {below nodes : List Node}
      (hs : (resolveInclude file target).components ∉ seen)
      (hin : Traverses itemsOf ((resolveInclude file target).components :: seen)
        (resolveInclude file target) (itemsOf (resolveInclude file target)) inner below)
      (h : Traverses itemsOf
        ((inner.map Inclusion.key).reverse ++ (resolveInclude file target).components :: seen)
        file rest outer nodes) :
      Traverses itemsOf seen file (.includes target location :: rest)
        (⟨file, resolveInclude file target⟩ :: inner ++ outer) (below ++ nodes)

theorem Location.isIn_iff {l : Location} {p : Path} :
    l.isIn p = true ↔ l.file.components = p.components :=
  Path.beq_iff

namespace Traverses

variable {itemsOf : Path → List Item} {seen : List (List Component)} {file : Path}
  {items : List Item} {reached : List Inclusion} {nodes : List Node}

theorem unique {reached' : List Inclusion} {nodes' : List Node}
    (h : Traverses itemsOf seen file items reached nodes)
    (h' : Traverses itemsOf seen file items reached' nodes') :
    reached' = reached ∧ nodes' = nodes := by
  induction h generalizing reached' nodes' with
  | done =>
    cases h'
    exact ⟨rfl, rfl⟩
  | statement _ ih =>
    cases h' with
    | statement h' =>
      obtain ⟨rfl, rfl⟩ := ih h'
      exact ⟨rfl, rfl⟩
  | again hs _ ih =>
    cases h' with
    | again _ h' => exact ih h'
    | first hs' _ _ => exact absurd hs hs'
  | first hs _ _ ihin ih =>
    cases h' with
    | again hs' _ => exact absurd hs' hs
    | first _ hin' h' =>
      obtain ⟨rfl, rfl⟩ := ihin hin'
      obtain ⟨rfl, rfl⟩ := ih h'
      exact ⟨rfl, rfl⟩

/-- No file is reached that was seen before, and none is reached twice. -/
theorem fresh (h : Traverses itemsOf seen file items reached nodes) :
    (∀ v ∈ reached, v.key ∉ seen) ∧ reached.Pairwise fun v w => v.key ≠ w.key := by
  induction h with
  | done => simp
  | statement _ ih => exact ih
  | again _ _ ih => exact ih
  | @first seen file target _ _ inner outer _ _ hs _ _ ihin ih =>
    obtain ⟨hin, hindistinct⟩ := ihin
    obtain ⟨hout, houtdistinct⟩ := ih
    simp only [List.mem_append, List.mem_reverse, List.mem_map, List.mem_cons, not_or] at hin hout
    constructor
    · intro v hv
      rcases List.mem_append.mp hv with hv | hv
      · rcases List.mem_cons.mp hv with rfl | hv
        · exact hs
        · exact (hin v hv).2
      · exact (hout v hv).2.2
    · refine List.pairwise_append.mpr ⟨List.pairwise_cons.mpr ⟨?_, hindistinct⟩, houtdistinct, ?_⟩
      · intro v hv he
        exact (hin v hv).1 he.symm
      · intro v hv w hw he
        rcases List.mem_cons.mp hv with rfl | hv
        · exact (hout w hw).2.1 he.symm
        · exact (hout w hw).1 ⟨v, hv, he⟩

/-- What every followed include has, if the include targets of newly met files have it. -/
theorem reached_induction {P : Path → Prop}
    (h : Traverses itemsOf seen file items reached nodes)
    (hstep : ∀ p, p.components ∉ seen → P p → ∀ target location,
      .includes target location ∈ itemsOf p → P (resolveInclude p target))
    (hitems : ∀ target location, .includes target location ∈ items →
      P (resolveInclude file target)) :
    ∀ v ∈ reached, P v.included := by
  induction h with
  | done => simp
  | statement _ ih =>
    apply ih hstep
    intro target location hm
    exact hitems target location (List.mem_cons_of_mem _ hm)
  | again _ _ ih =>
    apply ih hstep
    intro target location hm
    exact hitems target location (List.mem_cons_of_mem _ hm)
  | first hs _ _ ihin ih =>
    have hfirst := hitems _ _ List.mem_cons_self
    have hinner := ihin (fun p hp => hstep p fun hm => hp (List.mem_cons_of_mem _ hm))
      (hstep _ hs hfirst)
    have houter := ih
      (fun p hp => hstep p fun hm => hp (List.mem_append_right _ (List.mem_cons_of_mem _ hm)))
      fun target location hm => hitems target location (List.mem_cons_of_mem _ hm)
    intro v hv
    rcases List.mem_append.mp hv with hv | hv
    · rcases List.mem_cons.mp hv with rfl | hv
      · exact hfirst
      · exact hinner v hv
    · exact houter v hv

/-- Every include of the file itself, and of every file reached, leads to a file that was seen
before or is reached. -/
theorem covers (h : Traverses itemsOf seen file items reached nodes) :
    (∀ target location, .includes target location ∈ items →
      (resolveInclude file target).components ∈ seen ∨
        (resolveInclude file target).components ∈ reached.map Inclusion.key) ∧
    ∀ v ∈ reached, ∀ target location, .includes target location ∈ itemsOf v.included →
      (resolveInclude v.included target).components ∈ seen ∨
        (resolveInclude v.included target).components ∈ reached.map Inclusion.key := by
  induction h with
  | done => simp
  | statement _ ih =>
    refine ⟨fun target location hm => ?_, ih.2⟩
    exact ih.1 target location (by simpa using hm)
  | again hs _ ih =>
    refine ⟨fun target location hm => ?_, ih.2⟩
    rcases List.mem_cons.mp hm with he | hm
    · cases he
      exact .inl hs
    · exact ih.1 target location hm
  | @first seen file target _ _ inner outer _ _ hs _ _ ihin ih =>
    obtain ⟨hin, hinner⟩ := ihin
    obtain ⟨hout, houter⟩ := ih
    -- what counts as seen inside or behind the followed include is seen before it or reached by it
    have hinside {k : List Component}
        (hk : k ∈ (resolveInclude file target).components :: seen ∨ k ∈ inner.map Inclusion.key) :
        k ∈ seen ∨ k ∈ (⟨file, resolveInclude file target⟩ :: inner ++
          outer).map Inclusion.key := by
      simp only [List.mem_cons, List.map_append, List.map_cons, List.mem_append,
        Inclusion.key] at hk ⊢
      tauto
    have hbehind {k : List Component}
        (hk : k ∈ (inner.map Inclusion.key).reverse ++
          (resolveInclude file target).components :: seen ∨ k ∈ outer.map Inclusion.key) :
        k ∈ seen ∨ k ∈ (⟨file, resolveInclude file target⟩ :: inner ++
          outer).map Inclusion.key := by
      simp only [List.mem_append, List.mem_reverse, List.mem_cons, List.map_append, List.map_cons,
        Inclusion.key] at hk ⊢
      tauto
    constructor
    · intro other location hm
      rcases List.mem_cons.mp hm with he | hm
      · cases he
        exact hinside (.inl List.mem_cons_self)
      · exact hbehind (hout other location hm)
    · intro v hv other location hm
      rcases List.mem_append.mp hv with hv | hv
      · rcases List.mem_cons.mp hv with rfl | hv
        · exact hinside (hin other location hm)
        · exact hinside (hinner v hv other location hm)
      · exact hbehind (houter v hv other location hm)

theorem mem_nodes (h : Traverses itemsOf seen file items reached nodes) {n : Node}
    (hn : n ∈ nodes) :
    .statement n ∈ items ∨ ∃ v ∈ reached, .statement n ∈ itemsOf v.included := by
  induction h with
  | done => simp at hn
  | statement _ ih =>
    rcases List.mem_cons.mp hn with rfl | hn
    · exact .inl List.mem_cons_self
    · exact (ih hn).imp_left (List.mem_cons_of_mem _)
  | again _ _ ih => exact (ih hn).imp_left (List.mem_cons_of_mem _)
  | first _ _ _ ihin ih =>
    rcases List.mem_append.mp hn with hn | hn
    · rcases ihin hn with hn | ⟨v, hv, hn⟩
      · exact .inr ⟨_, List.mem_append_left _ List.mem_cons_self, hn⟩
      · exact .inr ⟨v, List.mem_append_left _ (List.mem_cons_of_mem _ hv), hn⟩
    · rcases ih hn with hn | ⟨v, hv, hn⟩
      · exact .inl (List.mem_cons_of_mem _ hn)
      · exact .inr ⟨v, List.mem_append_right _ hv, hn⟩

/-- There are no nodes in a file that is neither the file itself nor reached. -/
theorem nodes_elsewhere (hlocated : ∀ p n, .statement n ∈ itemsOf p → n.location.file = p)
    (h : Traverses itemsOf seen file items reached nodes)
    (hitems : ∀ n, .statement n ∈ items → n.location.file = file) {p : Path}
    (hfile : file.components ≠ p.components) (hreached : ∀ v ∈ reached, v.key ≠ p.components) :
    (nodes.filter fun n => n.location.isIn p) = [] := by
  refine List.filter_eq_nil_iff.mpr fun n hn he => ?_
  rw [Location.isIn_iff] at he
  rcases h.mem_nodes hn with hn | ⟨v, hv, hn⟩
  · exact hfile (by rw [← hitems n hn, he])
  · exact hreached v hv (by rw [Inclusion.key, ← hlocated _ n hn, he])

/-- Of the nodes, those in a file seen before are the statements of the file itself, or none. -/
theorem nodes_in_seen (hlocated : ∀ p n, .statement n ∈ itemsOf p → n.location.file = p)
    (h : Traverses itemsOf seen file items reached nodes)
    (hitems : ∀ n, .statement n ∈ items → n.location.file = file) {p : Path}
    (hp : p.components ∈ seen) :
    (nodes.filter fun n => n.location.isIn p) =
      if file.components = p.components then statementsOf items else [] := by
  induction h with
  | done => simp
  | @statement _ file n _ _ _ _ ih =>
    have hn := hitems n List.mem_cons_self
    have hrest := ih (fun m hm => hitems m (List.mem_cons_of_mem _ hm)) hp
    by_cases he : file.components = p.components
    · have hin : n.location.isIn p = true := by rw [Location.isIn_iff, hn, he]
      simp [hin, hrest, he]
    · have hout : ¬ n.location.isIn p = true := by rw [Location.isIn_iff, hn]; exact he
      simp [hout, hrest, he]
  | again _ _ ih => exact ih (fun m hm => hitems m (List.mem_cons_of_mem _ hm)) hp
  | @first _ file target _ _ _ _ _ _ hs _ _ ihin ih =>
    have hinner := ihin (hlocated _) (List.mem_cons_of_mem _ hp)
    have houter := ih (fun m hm => hitems m (List.mem_cons_of_mem _ hm))
      (List.mem_append_right _ (List.mem_cons_of_mem _ hp))
    have hother : (resolveInclude file target).components ≠ p.components := by
      intro he
      exact hs (he ▸ hp)
    rw [if_neg hother] at hinner
    rw [List.filter_append, hinner, houter]
    rfl

/-- Of the nodes, those in a reached file are its statements. -/
theorem nodes_in_reached (hlocated : ∀ p n, .statement n ∈ itemsOf p → n.location.file = p)
    (h : Traverses itemsOf seen file items reached nodes)
    (hitems : ∀ n, .statement n ∈ items → n.location.file = file)
    (hfile : file.components ∈ seen) {v : Inclusion} (hv : v ∈ reached) :
    (nodes.filter fun n => n.location.isIn v.included) = statementsOf (itemsOf v.included) := by
  induction h with
  | done => simp at hv
  | @statement seen file n rest reached nodes h ih =>
    have hn := hitems n List.mem_cons_self
    have hout : ¬ n.location.isIn v.included = true := by
      rw [Location.isIn_iff, hn]
      intro he
      exact h.fresh.1 v hv (by rw [Inclusion.key, ← he]; exact hfile)
    have hrest := ih (fun m hm => hitems m (List.mem_cons_of_mem _ hm)) hfile hv
    simp [hout, hrest]
  | again _ _ ih => exact ih (fun m hm => hitems m (List.mem_cons_of_mem _ hm)) hfile hv
  | @first seen file target location rest inner outer below nodes hs hin hout ihin ih =>
    have hwhole : Traverses itemsOf seen file (.includes target location :: rest) _
        (below ++ nodes) :=
      .first hs hin hout
    have hrest : ∀ n, .statement n ∈ rest → n.location.file = file := by
      intro n hn
      exact hitems n (List.mem_cons_of_mem _ hn)
    have hfile' : file.components ∈
        (inner.map Inclusion.key).reverse ++ (resolveInclude file target).components :: seen :=
      List.mem_append_right _ (List.mem_cons_of_mem _ hfile)
    rw [List.filter_append]
    by_cases hbehind : v ∈ outer
    · have hfresh := hout.fresh.1 v hbehind
      simp only [List.mem_append, List.mem_reverse, List.mem_map, List.mem_cons, not_or] at hfresh
      have hbelow : (below.filter fun n => n.location.isIn v.included) = [] :=
        hin.nodes_elsewhere hlocated (hlocated _) (fun he => hfresh.2.1 he.symm)
          fun w hw he => hfresh.1 ⟨w, hw, he⟩
      rw [hbelow, ih hrest hfile' hbehind, List.nil_append]
    · have hkey : v.key ∈
          (inner.map Inclusion.key).reverse ++ (resolveInclude file target).components :: seen := by
        simp only [List.mem_append, List.mem_cons, hbehind, or_false] at hv
        rcases hv with rfl | hv
        · simp [Inclusion.key]
        · simp only [List.mem_append, List.mem_reverse]
          exact .inl (List.mem_map_of_mem hv)
      have hnew : v.key ∉ seen := hwhole.fresh.1 v hv
      have hother : file.components ≠ v.included.components := by
        intro he
        exact hnew (by rw [Inclusion.key, ← he]; exact hfile)
      rw [hout.nodes_in_seen hlocated hrest hkey, if_neg hother, List.append_nil]
      simp only [List.mem_append, List.mem_cons, hbehind, or_false] at hv
      rcases hv with rfl | hv
      · rw [hin.nodes_in_seen hlocated (hlocated _) List.mem_cons_self, if_pos rfl]
      · exact ihin (hlocated _) List.mem_cons_self hv

end Traverses
end AspAtlas
