import AspAtlas.Project.Settings
import AspAtlas.Proofs.Disk.Writes
import AspAtlas.Proofs.Toml.Document
import Mathlib.Data.List.Flatten
/-!
Settings are read back from the document that they are written to. What is deleted from the document
has its default value then, a key or a whole table; the settings of the project have to stay.
-/
namespace AspAtlas

namespace Toml

-- The values of settings are turned into JSON in the proofs below.
attribute [local simp] Value.toJson jsonItems jsonMembers

namespace Setting

/-- A text under a key. -/
def text (key text : String) : Setting := ⟨key, quoted text, .text text⟩

/-- A list of texts under a key. -/
def texts (key : String) (texts : List String) : Setting :=
  ⟨key, listOf (texts.map quoted), .array (texts.map .text)⟩

/-- A truth value under a key. -/
def truth (key : String) (value : Bool) : Setting := ⟨key, Config.truthText value, .truth value⟩

/-- A number under a key. -/
def number (key : String) (k : Nat) : Setting := ⟨key, toString k, .integer k⟩

/-- A setting as a member of an object. -/
def json (s : Setting) : String × Json := (s.key, s.value.toJson)

end Setting

/-- A setting whose value is read back. -/
def Setting.Reads (s : Setting) : Prop := StandsFor s.written s.value

theorem jsonItems_texts (texts : List String) : jsonItems (texts.map .text) = texts.map .str := by
  induction texts with
  | nil => simp
  | cons text texts ih => simp [ih]

namespace Setting

@[simp] theorem json_text (key t : String) :
    (text key t).json = (key, .str t) := by simp [json, text]

@[simp] theorem json_texts (key : String) (ts : List String) :
    (texts key ts).json = (key, Json.ofList .str ts) := by
  simp [json, texts, jsonItems_texts, Json.ofList]

@[simp] theorem json_truth (key : String) (value : Bool) :
    (truth key value).json = (key, .bool value) := by
  simp [json, truth]

@[simp] theorem json_number (key : String) (k : Nat) : (number key k).json = (key, Json.nat k) := by
  simp [json, number, Json.nat]

@[simp] theorem reads_text (key t : String) : (text key t).Reads := standsFor_quoted t

@[simp] theorem reads_texts (key : String) (ts : List String) : (texts key ts).Reads :=
  standsFor_listOf ts

@[simp] theorem reads_truth (key : String) (value : Bool) : (truth key value).Reads :=
  standsFor_truth value

@[simp] theorem reads_number (key : String) {k : Nat} (hk : k < 9223372036854775808) :
    (number key k).Reads :=
  standsFor_number hk

end Setting

/-- Whether a key may stand without quotes. -/
def isKey (key : String) : Bool := !key.toList.isEmpty && key.toList.all isBare

theorem isKey_iff {key : String} : isKey key = true ↔ IsKey key := by
  simp [isKey, IsKey]

/-- A table is readable when its name and its keys are good ones. -/
theorem Table.Readable.of_keys {name : String} {settings : List Setting} (keys : List String)
    (hkeys : settings.map Setting.key = keys) (hgood : (name :: keys).all isKey = true)
    (hdistinct : keys.Nodup) (hreads : ∀ s ∈ settings, s.Reads) :
    Table.Readable ⟨name, settings⟩ where
  name := isKey_iff.mp (List.all_eq_true.mp hgood name List.mem_cons_self)
  keys s hs := isKey_iff.mp <|
    List.all_eq_true.mp hgood s.key (List.mem_cons_of_mem name (hkeys ▸ List.mem_map_of_mem hs))
  values := hreads
  distinct := hkeys ▸ hdistinct

theorem jsonMembers_eq_map (members : Members) :
    jsonMembers members = members.map fun m => (m.1, m.2.toJson) := by
  induction members with
  | nil => simp
  | cons m members ih => simp [ih]

theorem jsonMembers_members (t : Table) : jsonMembers t.members = t.settings.map Setting.json := by
  rw [jsonMembers_eq_map, Table.members, List.map_map]
  rfl

theorem jsonMembers_tables (tables : List Table) :
    jsonMembers (tables.map fun t => (t.name, .table .header t.members)) =
      tables.map fun t => (t.name, .obj (t.settings.map Setting.json)) := by
  rw [jsonMembers_eq_map, List.map_map]
  exact List.map_congr_left fun t _ => by simp [jsonMembers_members]

end Toml

open Toml (Setting Table)

namespace ProjectConfig

/-- The settings of a project, by their keys. -/
def settings (c : ProjectConfig) : List Setting :=
  [.text "name" c.name, .texts "source_dirs" (c.sourceDirs.map Path.text),
    .texts "ignore_patterns" c.ignorePatterns, .text "docs_dir" c.docsDir.text]

end ProjectConfig

namespace AnalysisConfig

/-- The settings of an analysis, by their keys. -/
def settings (c : AnalysisConfig) : List Setting :=
  [.texts "extensions" c.extensions, .text "directive_marker" (String.singleton c.directiveMarker),
    .text "description_marker" c.descriptionMarker, .text "comment_marker" c.commentMarker,
    .text "predicate_directive" c.predicateDirective,
    .text "variable_directive" c.variableDirective,
    .text "section_directive" c.sectionDirective, .number "max_file_size" c.maxFileSize]

/-- The settings under the keys that are kept, and the defaults of the others. -/
def kept (keep : String → Bool) (c : AnalysisConfig) : AnalysisConfig :=
  let d : AnalysisConfig := {}
  { extensions := if keep "extensions" then c.extensions else d.extensions
    directiveMarker := if keep "directive_marker" then c.directiveMarker else d.directiveMarker
    descriptionMarker := if keep "description_marker" then c.descriptionMarker
      else d.descriptionMarker
    commentMarker := if keep "comment_marker" then c.commentMarker else d.commentMarker
    predicateDirective := if keep "predicate_directive" then c.predicateDirective
      else d.predicateDirective
    variableDirective := if keep "variable_directive" then c.variableDirective
      else d.variableDirective
    sectionDirective := if keep "section_directive" then c.sectionDirective else d.sectionDirective
    maxFileSize := if keep "max_file_size" then c.maxFileSize else d.maxFileSize }

end AnalysisConfig

namespace GraphConfig

/-- The settings of graphs, by their keys. -/
def settings (c : GraphConfig) : List Setting :=
  [.truth "enabled" c.enabled, .truth "statement_graph" c.statementGraph,
    .truth "definition_graph" c.definitionGraph]

/-- The settings under the keys that are kept, and the defaults of the others. -/
def kept (keep : String → Bool) (c : GraphConfig) : GraphConfig :=
  let d : GraphConfig := {}
  { enabled := if keep "enabled" then c.enabled else d.enabled
    statementGraph := if keep "statement_graph" then c.statementGraph else d.statementGraph
    definitionGraph := if keep "definition_graph" then c.definitionGraph else d.definitionGraph }

end GraphConfig

namespace OutputConfig

/-- The settings of reports, by their keys. -/
def settings (c : OutputConfig) : List Setting :=
  [.truth "pretty_json" c.prettyJson, .truth "include_source_lines" c.includeSourceLines]

/-- The settings under the keys that are kept, and the defaults of the others. -/
def kept (keep : String → Bool) (c : OutputConfig) : OutputConfig :=
  let d : OutputConfig := {}
  { prettyJson := if keep "pretty_json" then c.prettyJson else d.prettyJson
    includeSourceLines := if keep "include_source_lines" then c.includeSourceLines
      else d.includeSourceLines }

end OutputConfig

namespace Config

variable {c : Config}

/-- The tables of a document. -/
def tables (c : Config) : List Table :=
  [⟨"project", c.project.settings⟩, ⟨"analysis", c.analysis.settings⟩,
    ⟨"graphs", c.graphs.settings⟩, ⟨"output", c.output.settings⟩]

theorem document_eq (c : Config) : c.document = Toml.documentOf (c.tables.map Table.text) := rfl

/-- What is deleted from a document: tables, and keys of tables. -/
structure Deletion where
  tables : List String
  keys : List (String × String)

namespace Deletion

/-- The table of the project has to stay. -/
def keepsTable (d : Deletion) (name : String) : Bool := name == "project" || !d.tables.contains name

/-- The keys of the project have to stay. -/
def keepsKey (d : Deletion) (name key : String) : Bool :=
  name == "project" || !d.keys.contains (name, key)

/-- The keys of a table that are kept. -/
def rest (d : Deletion) (t : Table) : Table :=
  ⟨t.name, t.settings.filter fun s => d.keepsKey t.name s.key⟩

theorem rest_readable (d : Deletion) {t : Table} (h : t.Readable) : (d.rest t).Readable where
  name := h.name
  keys s hs := h.keys s (List.mem_filter.mp hs).1
  values s hs := h.values s (List.mem_filter.mp hs).1
  distinct := h.distinct.sublist (List.filter_sublist.map Setting.key)

end Deletion

/-- The document without what is deleted. -/
def documentWithout (c : Config) (d : Deletion) : String :=
  Toml.documentOf (((c.tables.filter fun t => d.keepsTable t.name).map d.rest).map Table.text)

/-- The settings with defaults for those that are deleted. -/
def without (c : Config) (d : Deletion) : Config where
  project := c.project
  analysis := if d.keepsTable "analysis" then c.analysis.kept (d.keepsKey "analysis") else {}
  graphs := if d.keepsTable "graphs" then c.graphs.kept (d.keepsKey "graphs") else {}
  output := if d.keepsTable "output" then c.output.kept (d.keepsKey "output") else {}

section Reading

open Json

/-- An object of some of the settings under known keys is a record of their values. -/
theorem record?_filter (names : List String) (members : List (String × Json)) (keep : String → Bool)
    (hnames : names.Nodup) (h : members.map Prod.fst = names) :
    record? names (.obj (members.filter fun m => keep m.1)) true =
      some ⟨members.filter fun m => keep m.1, false⟩ := by
  have hsub : ((members.filter fun m => keep m.1).map Prod.fst).Sublist names :=
    h ▸ (List.filter_sublist).map Prod.fst
  exact record?_obj hnames hsub

theorem ofJson?_project (c : Config) (keep : String → Bool) (hkeep : ∀ key, keep key = true) :
    ProjectConfig.ofJson? true
        (.obj ((c.project.settings.map Setting.json).filter fun m => keep m.1)) =
          some c.project := by
  have hall : (c.project.settings.map Setting.json).filter (fun m => keep m.1) =
      c.project.settings.map Setting.json := List.filter_eq_self.mpr fun m _ => hkeep m.1
  have hrecord := record?_filter ["name", "source_dirs", "ignore_patterns", "docs_dir"]
    (c.project.settings.map Setting.json) keep (by decide) rfl
  rw [hall] at hrecord ⊢
  simp only [ProjectConfig.ofJson?, ↓Json.bind_eq_some_iff, Option.some.injEq]
  refine ⟨_, hrecord, _, Codec.text.read_field trivial ?_, _,
    (Codec.list Codec.path).read_field (fun _ _ => trivial) ?_, _,
    (Codec.list Codec.text).read_field (fun _ _ => trivial) ?_, _,
    Codec.path.read_field trivial ?_, rfl⟩
  all_goals simp [ProjectConfig.settings, Json.ofList, Json.ofPath]

theorem ofJson?_analysis (hsize : c.analysis.maxFileSize < 9223372036854775808)
    (keep : String → Bool) : AnalysisConfig.ofJson? true
        (.obj ((c.analysis.settings.map Setting.json).filter fun m => keep m.1)) =
      some (c.analysis.kept keep) := by
  have hword : IsWord c.analysis.maxFileSize := Nat.lt_trans hsize (by decide)
  have hrecord := record?_filter AnalysisConfig.jsonKeys
    (c.analysis.settings.map Setting.json) keep (by decide) rfl
  simp only [AnalysisConfig.ofJson?, ↓Json.bind_eq_some_iff, Option.some.injEq]
  refine ⟨_, hrecord, _, (Codec.list Codec.text).read_kept (fun _ _ => trivial) ?_, _,
    Codec.letter.read_kept trivial ?_, _, Codec.text.read_kept trivial ?_, _,
    Codec.text.read_kept trivial ?_, _, Codec.text.read_kept trivial ?_, _,
    Codec.text.read_kept trivial ?_, _,
    Codec.text.read_kept trivial ?_, _, Codec.nat.read_kept hword ?_, rfl⟩
  all_goals simp [AnalysisConfig.settings]

theorem ofJson?_graphs (keep : String → Bool) :
    GraphConfig.ofJson? true
      (.obj ((c.graphs.settings.map Setting.json).filter fun m => keep m.1)) =
      some (c.graphs.kept keep) := by
  have hrecord := record?_filter ["enabled", "statement_graph", "definition_graph"]
    (c.graphs.settings.map Setting.json) keep (by decide) rfl
  simp only [GraphConfig.ofJson?, ↓Json.bind_eq_some_iff, Option.some.injEq]
  refine ⟨_, hrecord, _, Codec.truth.read_kept trivial ?_, _, Codec.truth.read_kept trivial ?_, _,
    Codec.truth.read_kept trivial ?_, rfl⟩
  all_goals simp [GraphConfig.settings]

theorem ofJson?_output (keep : String → Bool) :
    OutputConfig.ofJson? true
      (.obj ((c.output.settings.map Setting.json).filter fun m => keep m.1)) =
      some (c.output.kept keep) := by
  have hrecord := record?_filter ["pretty_json", "include_source_lines"]
    (c.output.settings.map Setting.json) keep (by decide) rfl
  simp only [OutputConfig.ofJson?, ↓Json.bind_eq_some_iff, Option.some.injEq]
  refine ⟨_, hrecord, _, Codec.truth.read_kept trivial ?_, _, Codec.truth.read_kept trivial ?_, rfl⟩
  all_goals simp [OutputConfig.settings]

/-- The tables as JSON, with the keys that are kept. -/
def tablesJson (c : Config) (d : Deletion) : List (String × Json) :=
  c.tables.map fun t => (t.name,
    .obj ((t.settings.map Setting.json).filter fun m => d.keepsKey t.name m.1))

theorem ofJson?_tables (hsize : c.analysis.maxFileSize < 9223372036854775808) (d : Deletion) :
    ofJson? true (.obj ((c.tablesJson d).filter fun m => d.keepsTable m.1)) =
      some (c.without d) := by
  have hrecord := record?_filter ["project", "analysis", "graphs", "output"]
    (c.tablesJson d) d.keepsTable (by decide) rfl
  have hproject := ofJson?_project c (d.keepsKey "project") fun _ => rfl
  simp only [ofJson?, ↓Json.bind_eq_some_iff, Option.some.injEq]
  refine ⟨_, hrecord, c.project, ?_, _, Record.defaulted_filter ?_ (ofJson?_analysis hsize _), _,
    Record.defaulted_filter ?_ (ofJson?_graphs _), _,
      Record.defaulted_filter ?_ (ofJson?_output _), rfl⟩
  · rw [Record.field, Record.get?_filter]
    simpa [tablesJson, tables, Deletion.keepsTable] using hproject
  all_goals simp [tablesJson, tables]

end Reading

section Documents

variable {d : Deletion}

theorem readable_tables (hsize : c.analysis.maxFileSize < 9223372036854775808) :
    ∀ t ∈ c.tables, t.Readable := by
  simp only [tables, List.forall_mem_cons, List.not_mem_nil, false_implies, implies_true, and_true]
  refine ⟨.of_keys ["name", "source_dirs", "ignore_patterns", "docs_dir"] rfl (by decide)
    (by decide) ?_, .of_keys AnalysisConfig.jsonKeys rfl (by decide) (by decide) ?_,
    .of_keys ["enabled", "statement_graph", "definition_graph"] rfl (by decide) (by decide) ?_,
    .of_keys ["pretty_json", "include_source_lines"] rfl (by decide) (by decide) ?_⟩
  · simp [ProjectConfig.settings]
  · simp [AnalysisConfig.settings, hsize]
  · simp [GraphConfig.settings]
  · simp [OutputConfig.settings]

/-- The tables that are left of a document, as JSON. -/
theorem jsonMembers_rest (d : Deletion) :
    Toml.jsonMembers (((c.tables.filter fun t => d.keepsTable t.name).map d.rest).map fun t =>
      (t.name, .table .header t.members)) = (c.tablesJson d).filter fun m => d.keepsTable m.1 := by
  rw [Toml.jsonMembers_tables, tablesJson, List.filter_map, List.map_map]
  refine List.map_congr_left fun t _ => ?_
  simp only [Function.comp_apply, Deletion.rest, List.filter_map]
  rfl

/-- What is left of a document stands for the settings with defaults for those that are deleted. -/
theorem ofToml_documentWithout (hsize : c.analysis.maxFileSize < 9223372036854775808)
    (d : Deletion) :
    ofToml (c.documentWithout d) = (c.without d).validate.map fun _ => c.without d := by
  have hreadable : ∀ t ∈ (c.tables.filter fun t => d.keepsTable t.name).map d.rest, t.Readable := by
    intro t ht
    obtain ⟨t, hkept, rfl⟩ := List.mem_map.mp ht
    exact d.rest_readable (readable_tables hsize t (List.mem_filter.mp hkept).1)
  have hdistinct :
      (((c.tables.filter fun t => d.keepsTable t.name).map d.rest).map Table.name).Nodup := by
    have hnames : (c.tables.map Table.name).Nodup := by
      have heq : c.tables.map Table.name = ["project", "analysis", "graphs", "output"] := rfl
      rw [heq]
      decide
    rw [List.map_map]
    exact hnames.sublist (List.filter_sublist.map Table.name)
  have hread : ((Toml.parse? (c.documentWithout d)).bind fun members =>
      ofJson? true (.obj (Toml.jsonMembers members))) = some (c.without d) := by
    rw [documentWithout, Toml.parse?_documentOf hreadable hdistinct, Option.bind_some,
      jsonMembers_rest, ofJson?_tables hsize d]
  rw [ofToml, hread]
  cases hvalid : (c.without d).validate <;> simp [hvalid, Except.map]

theorem text_rest_sublist (d : Deletion) (t : Table) :
    (d.rest t).text.toList.Sublist t.text.toList := by
  have hlines : (Toml.linesOf (d.rest t).settings).Sublist (Toml.linesOf t.settings) :=
    List.filter_sublist.flatMap _
  rw [Toml.toList_text, Toml.toList_text]
  exact ((((hlines.cons_cons _).cons_cons _).append_left _).cons_cons _)

/-- What is left of a document is the document without some of its characters. -/
theorem documentWithout_sublist (c : Config) (d : Deletion) :
    (c.documentWithout d).toList.Sublist c.document.toList := by
  obtain ⟨others, hothers⟩ : ∃ others, c.tables = ⟨"project", c.project.settings⟩ ::
    others := ⟨_, rfl⟩
  have hkept : c.tables.filter (fun t => d.keepsTable t.name) =
      ⟨"project", c.project.settings⟩ :: others.filter fun t => d.keepsTable t.name := by
    rw [hothers, List.filter_cons_of_pos]
    rfl
  have hleft := Toml.feed_cons_documentOf (d.rest ⟨"project", c.project.settings⟩)
    ((others.filter fun t => d.keepsTable t.name).map d.rest)
  have hwhole := Toml.feed_cons_documentOf ⟨"project", c.project.settings⟩ others
  rw [← List.map_cons, ← hkept, List.flatMap_map] at hleft
  rw [← hothers] at hwhole
  rw [← List.cons_sublist_cons (a := '\n'), documentWithout, hleft, document_eq, hwhole]
  refine (List.Sublist.flatMap_right _ fun t _ => ?_).trans (List.filter_sublist.flatMap _)
  exact (text_rest_sublist d t).cons_cons _

/-- Without a deletion the document and the settings stay as they are. -/
theorem without_nothing (c : Config) :
    c.documentWithout ⟨[], []⟩ = c.document ∧ c.without ⟨[], []⟩ = c := by
  have htable (name : String) :
      Deletion.keepsTable ⟨[], []⟩ name = true := by simp [Deletion.keepsTable]
  have hkey (name key : String) :
      Deletion.keepsKey ⟨[], []⟩ name key = true := by simp [Deletion.keepsKey]
  have hall (t : Table) : t.settings.filter (fun s => Deletion.keepsKey ⟨[], []⟩ t.name s.key) =
      t.settings :=
    List.filter_eq_self.mpr fun s _ => hkey t.name s.key
  constructor
  · have hrest : Deletion.rest ⟨[], []⟩ = id := by
      funext t
      rw [Deletion.rest, hall]
      rfl
    rw [documentWithout, List.filter_eq_self.mpr fun t _ => htable t.name, hrest, List.map_id,
      document_eq]
  · simp [without, htable, hkey, AnalysisConfig.kept, GraphConfig.kept, OutputConfig.kept]

theorem readText_of_writeText {disk disk' : Disk} {p : Path} {text : String}
    (h : disk.writeText p text = .ok disk') : disk'.readText p = .ok text := by
  obtain ⟨last, hlast, hread⟩ := (Disk.Writes.text h .done).readText List.mem_cons_self
  have hwritten : some (p, text) = some last := by
    rw [← hlast, Disk.lastAt_cons, if_pos rfl]
    rfl
  rw [hread, ← Option.some.inj hwritten]

/-- Settings are saved wherever a file can be written, and loaded from there as they were. From what
is left of the file when settings are deleted from it, the same settings are loaded with defaults
for the deleted ones, provided an analysis can work with them. -/
theorem saved_settings_load (c : Config) (hvalid : c.validate = .ok ())
    (hsize : c.analysis.maxFileSize < 9223372036854775808) :
    (∀ (disk : Disk) (p : Path), disk.Writable p → ∃ disk', c.save disk p = .ok disk' ∧
      disk'.readText p = .ok c.document ∧ load disk' p = .ok c) ∧
    ∀ d : Deletion, (c.documentWithout d).toList.Sublist c.document.toList ∧
      ∀ (disk disk' : Disk) (p : Path), disk.writeText p (c.documentWithout d) = .ok disk' →
        load disk' p = (c.without d).validate.map fun _ => c.without d := by
  refine ⟨fun disk p hwritable => ?_,
    fun d => ⟨c.documentWithout_sublist d, fun disk disk' p hwrite => ?_⟩⟩
  · obtain ⟨disk', hwrite⟩ := (Disk.writable_iff_writeText c.document).mp hwritable
    have hread := readText_of_writeText hwrite
    have hback : ofToml c.document = .ok c := by
      obtain ⟨hdocument, hsettings⟩ := without_nothing c
      rw [← hdocument, ofToml_documentWithout hsize, hsettings, hvalid]
      rfl
    refine ⟨disk', ?_, hread, ?_⟩
    · simp only [save, toToml, hsize, if_true, hwrite]
    · simp only [load, hread, hback]
  · simp only [load, readText_of_writeText hwrite, ofToml_documentWithout hsize]

section Thorny

/-- Settings with quotes, backslashes and control characters, at the end of the range of sizes. -/
def thorny : Config where
  project := ⟨"a \"\"\" \\ \u0001\n\"", [⟨""⟩, ⟨"é\x0d\n"⟩, ⟨"it's"⟩], [], ⟨"'''\t\""⟩⟩
  analysis := ⟨["lp", "a.\""], '"', "\\->", "#", "\n[x]", "''", "= 'a'", 9223372036854775807⟩
  graphs := ⟨false, true, false⟩
  output := ⟨false, true⟩

theorem saved_settings_load_of_thorny :
    thorny.validate = .ok () ∧ thorny.analysis.maxFileSize < 9223372036854775808 ∧
      (∃ disk', thorny.save {} ⟨"aspdoc.toml"⟩ = .ok disk' ∧
        load disk' ⟨"aspdoc.toml"⟩ = .ok thorny) ∧
      ∃ disk', Disk.writeText {} ⟨"aspdoc.toml"⟩
          (thorny.documentWithout ⟨["graphs"], [("analysis", "extensions")]⟩) = .ok disk' ∧
        load disk' ⟨"aspdoc.toml"⟩ = .ok { thorny with
          analysis := { thorny.analysis with extensions := ["lp"] }
          graphs := {} } := by
  have hvalid : thorny.validate = .ok () := rfl
  have hsize : thorny.analysis.maxFileSize < 9223372036854775808 := by decide
  have hwritable : Disk.Writable {} ⟨"aspdoc.toml"⟩ := rfl
  obtain ⟨hsaved, hdeleted⟩ := saved_settings_load thorny hvalid hsize
  obtain ⟨disk', hsave, -, hload⟩ := hsaved {} ⟨"aspdoc.toml"⟩ hwritable
  refine ⟨hvalid, hsize, ⟨disk', hsave, hload⟩, ?_⟩
  obtain ⟨left, hwrite⟩ := (Disk.writable_iff_writeText (thorny.documentWithout
    ⟨["graphs"], [("analysis", "extensions")]⟩)).mp hwritable
  refine ⟨left, hwrite, ?_⟩
  rw [(hdeleted _).2 _ _ _ hwrite]
  rfl

end Thorny

end Documents

end Config
end AspAtlas
