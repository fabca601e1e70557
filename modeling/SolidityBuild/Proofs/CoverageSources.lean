import SolidityBuild.Artifact.Coverage
import SolidityBuild.Proofs.ImportCycles
import SolidityBuild.Proofs.JsonLayers
import SolidityBuild.Proofs.RequestCoverage

/-!
# Sources in coverage documents

Every document of a batch carries one table with the number and the file of each source that was sent, and one
with its text (`document_tables`). The text is found by the name of the source over the file that is recorded for it, and it
is the text that was sent. The file is recorded as it was spelled when it was first registered, and the address
that was sent is as it was spelled when the name was: they are the same place (`documents_carry_sources`).
-/

namespace SolidityBuild

namespace NameRegistry

/-! ## Spellings -/

theorem mem_owners_setOwner {registry : NameRegistry} {file : Path} {name : String} {entry : Path × String}
    (mem : entry ∈ (registry.setOwner file name).owners) : (∃ old ∈ registry.owners, old.1 = entry.1) ∨ entry.1 = file := by
  unfold setOwner at mem
  dsimp only at mem
  split at mem
  · obtain ⟨old, listed, same⟩ := List.mem_map.mp mem
    refine .inl ⟨old, listed, ?_⟩
    rw [← same]
    split <;> rfl
  · obtain listed | last := List.mem_append.mp mem
    · exact .inl ⟨entry, listed, rfl⟩
    · exact .inr (by rw [List.mem_singleton.mp last])

theorem mem_owners_register {registry : NameRegistry} {name : String} {file : Path} {isPrimary : Bool}
    {entry : Path × String} (mem : entry ∈ (registry.register name file isPrimary).owners) :
    (∃ old ∈ registry.owners, old.1 = entry.1) ∨ entry.1 = file := by
  by_cases free : registry.Free name file
  · rw [register_of_free free] at mem
    split at mem
    · exact mem_owners_setOwner mem
    · exact .inl ⟨entry, mem, rfl⟩
  · rw [register_of_taken free] at mem
    exact .inl ⟨entry, mem, rfl⟩

/-- A file that has an owner is spelled as in some registration. -/
theorem mem_owners_registerAll {registrations : List Registration} {entry : Path × String}
    (mem : entry ∈ (empty.registerAll registrations).owners) : ∃ r ∈ registrations, r.file = entry.1 := by
  induction registrations using List.reverseRecOn generalizing entry with
  | nil => cases mem
  | append_singleton registrations last ih =>
    rw [registerAll_append, registerAll_cons, registerAll_nil] at mem
    obtain ⟨old, listed, same⟩ | same := mem_owners_register mem
    · obtain ⟨r, before, spelled⟩ := ih listed
      exact ⟨r, List.mem_append_left _ before, spelled.trans same⟩
    · exact ⟨last, List.mem_append_right _ (List.mem_singleton_self last), same.symm⟩

theorem edge_of_mem_walkCalls {graph : ImportGraph} {registry : NameRegistry} {seen queue : List Path} {r : Registration}
    (mem : r ∈ walkCalls graph registry seen queue) : ∃ edge ∈ graph.allEdges, edge.target = r.file := by
  induction registry, seen, queue using walkCalls.induct graph with
  | case1 registry seen =>
    rw [walkCalls] at mem
    cases mem
  | case2 registry seen importer queue calls known ih =>
    rw [walkCalls] at mem
    obtain here | later := List.mem_append.mp mem
    · obtain ⟨edge, follows, call⟩ := List.mem_flatMap.mp here
      exact ⟨edge, edges_subset graph importer follows, (file_of_mem_importCalls call).symm⟩
    · exact ih later

end NameRegistry

namespace Batch

variable {graph : ImportGraph} {units : List CompilationUnit} {store : SourceStore} {settings : CompilerSettings}
  {request : CompilerRequest} {names : SourceNames} {name : String} {file : Path}

/-- A path as the files of units are spelled: that of a primary file, or the target of a recorded import. -/
inductive Spelled (graph : ImportGraph) (units : List CompilationUnit) : Path → Prop where
  | primary {unit : CompilationUnit} (mem : unit ∈ units) : Spelled graph units unit.primary
  | target {edge : ImportEdge} (mem : edge ∈ graph.allEdges) : Spelled graph units edge.target

/-- Whether a file is spelled in one way only. -/
def SpelledOnce (graph : ImportGraph) (units : List CompilationUnit) (file : Path) : Prop :=
  ∀ ⦃p q⦄, Spelled graph units p → Spelled graph units q → p.same file = true → q.same file = true → p = q

theorem Spelled.mono (spelled : Spelled graph units file) {more : List CompilationUnit} (inside : units ⊆ more) :
    Spelled graph more file := by
  cases spelled with
  | primary mem => exact .primary (inside mem)
  | target mem => exact .target mem

theorem spelled_of_mem_calls {registry : NameRegistry} {r : Registration} (mem : r ∈ calls graph registry units) :
    Spelled graph units r.file := by
  induction units generalizing registry with
  | nil => cases mem
  | cons unit rest ih =>
    obtain here | later := List.mem_append.mp mem
    · obtain rfl | walked := List.mem_cons.mp here
      · exact .primary (List.mem_cons_self ..)
      · obtain ⟨edge, listed, same⟩ := NameRegistry.edge_of_mem_walkCalls walked
        exact same ▸ .target listed
    · exact (ih later).mono (List.subset_cons_self unit rest)

theorem spelled_of_get? (named : (ofUnits graph units).registry.names.get? name = some file) : Spelled graph units file := by
  rw [registry_ofUnits] at named
  obtain nothing | ⟨r, mem, rfl⟩ := NameRegistry.get?_registerAll_cases named
  · cases nothing
  · exact spelled_of_mem_calls mem

theorem spelled_of_mem_owners {entry : Path × String} (mem : entry ∈ (ofUnits graph units).registry.owners) :
    Spelled graph units entry.1 := by
  rw [registry_ofUnits] at mem
  obtain ⟨r, listed, same⟩ := NameRegistry.mem_owners_registerAll mem
  exact same ▸ spelled_of_mem_calls listed

theorem spelled_of_fileOf? (requested : (ofUnits graph units).request store settings = .ok (request, names))
    (found : names.fileOf? name = some file) : Spelled graph units file := by
  obtain ⟨_, _, _, _, rfl⟩ := request_eq_ok requested
  rw [SourceNames.fileOf?, SourceNames.ofOwners, Dict.get?_ofList] at found
  obtain owner | copy := List.mem_append.mp (List.mem_reverse.mp (Entries.mem_of_find? found))
  · obtain ⟨entry, listed, same⟩ := List.mem_map.mp owner
    cases same
    exact spelled_of_mem_owners listed
  · obtain ⟨⟨other, there, sent⟩, listed, same⟩ := List.mem_filterMap.mp copy
    dsimp only at same
    split at same
    · cases same
      exact spelled_of_get? (mem_sendings.mp listed).1
    · cases same

/-- The files of units that a workspace has loaded and expanded are spelled in one way. -/
theorem spelledOnce_of_reached (reached : Workspace.Reached ⟨store, graph⟩)
    (primaries : ∀ unit ∈ units, store.Stores unit.primary) (file : Path) : SpelledOnce graph units file := by
  have stores {p : Path} (spelled : Spelled graph units p) : store.Stores p := by
    cases spelled with
    | primary mem => exact primaries _ mem
    | target mem =>
      obtain ⟨x, listed, inside⟩ := List.mem_flatMap.mp mem
      obtain ⟨f, -, -, knows⟩ := reached.ready.recorded x listed
      obtain ⟨content, known⟩ := knows _ inside
      exact ⟨content, known.own⟩
  intro p q spelled spelled' same same'
  obtain ⟨content, found⟩ := stores spelled
  obtain ⟨content', found'⟩ := stores spelled'
  rw [store.file?_congr (Path.same_trans same (Path.same_symm same')), found'] at found
  cases found
  rfl

end Batch

namespace Artifact.Compilation

open SolidityBuild.Batch (Built SpelledOnce)

variable {c : Compilation}

/-! ## Tables -/

theorem entries_sourceReferences (c : Compilation) : c.sourceReferences.entries =
    c.request.sources.keys.zipIdx.map fun (name, position) => (name, c.sourceReference name position) := by
  refine Entries.sort_of_ordered (Entries.ordered_iff_keys.mpr ?_)
  have names : (c.request.sources.keys.zipIdx.map fun (name, position) => (name, c.sourceReference name position)).map (·.1) =
      c.request.sources.keys := by
    rw [List.map_map]
    exact List.zipIdx_map_fst 0 c.request.sources.keys
  rw [names]
  exact c.request.sources.pairwise_keys

theorem keys_sourceReferences (c : Compilation) : c.sourceReferences.keys = c.request.sources.keys := by
  rw [Dict.keys, entries_sourceReferences, List.map_map]
  exact List.zipIdx_map_fst 0 c.request.sources.keys

theorem get?_sourceReferences {name : String} (mem : name ∈ c.request.sources.keys) :
    ∃ position, c.sourceReferences.get? name = some (c.sourceReference name position) := by
  obtain ⟨position, at_⟩ := List.mem_iff_getElem?.mp mem
  refine ⟨position, ?_⟩
  rw [Dict.get?_eq_some_iff, Dict.toList, entries_sourceReferences]
  exact List.mem_map.mpr ⟨(name, position), List.mem_zipIdx_iff_getElem?.mpr at_, rfl⟩

/-- If the texts of all sources are found, the table has an entry for each of them. -/
theorem entries_sourceTexts {text : String → String} (found : ∀ name ∈ c.request.sources.keys, c.sourceText? name = some (text name)) :
    c.sourceTexts.entries = c.request.sources.keys.map fun name => (name, .string (text name)) := by
  have all : (c.request.sources.keys.filterMap fun name => (c.sourceText? name).map fun text => (name, Json.string text)) =
      c.request.sources.keys.map fun name => (name, .string (text name)) := by
    rw [← List.filterMap_eq_map]
    refine List.filterMap_congr fun name mem => ?_
    rw [found name mem]
    rfl
  rw [sourceTexts, all]
  refine Entries.sort_of_ordered (Entries.ordered_iff_keys.mpr ?_)
  rw [List.map_map]
  exact (List.map_id c.request.sources.keys).symm ▸ c.request.sources.pairwise_keys

/-- The tables that every document carries. -/
theorem document_tables {primary : Path} {documents : List (String × Json)} (made : c.documents primary = .ok documents)
    {contract : String} {document : Json} (listed : (contract, document) ∈ documents) :
    document.get? "sources" = some (.ofDict c.sourceReferences) ∧
      document.get? "sourceCodes" = some (.ofDict c.sourceTexts) := by
  unfold Compilation.documents at made
  split at made
  · cases made
    cases listed
  · obtain ⟨unit, -, same⟩ := bind_eq_ok_iff.mp made
    cases same
    obtain ⟨output, -, same⟩ := List.mem_map.mp listed
    cases same
    exact ⟨by simp [document, Json.get?, Entries.find?], by simp [document, Json.get?, Entries.find?]⟩

/-- A file with one contract has one document. -/
theorem exists_document (c : Compilation) (primary : Path) (contract : String)
    (single : (c.documents primary).toOption.map (·.map (·.1)) = some [contract]) :
    ∃ document, c.documents primary = .ok [(contract, document)] := by
  obtain ⟨documents, made, names⟩ := Option.map_eq_some_iff.mp single
  obtain ⟨⟨name, document⟩, rfl, rfl⟩ := List.map_eq_singleton_iff.mp names
  exact ⟨document, toOption_eq_some_iff.mp made⟩

/-! ## Files and texts -/

section

variable {graph : ImportGraph} {batch : Batch} {settings : CompilerSettings}

/-- What is recorded for a source that was sent: its text, and its file as it was first spelled. -/
theorem recorded_of_sent (built : Built graph batch) (requested : batch.request c.store settings = .ok (c.request, c.names))
    {name : String} {source : SourceEntry} (sent : c.request.sources.get? name = some source) :
    ∃ file recorded, source.urls = [file.text] ∧ c.names.fileOf? name = some recorded ∧ recorded.same file = true ∧
      c.sourceText? name = some source.content ∧ (SpelledOnce graph batch.units file → recorded = file) := by
  rw [built.eq_ofUnits] at requested
  obtain ⟨wellFormed, apart⟩ := Batch.wellFormed_and_apart graph batch.units
  obtain ⟨file, owner, named, owned, -, entry⟩ := (Batch.get?_sources requested).mp sent
  obtain ⟨unit, loaded, same⟩ := bind_eq_ok_iff.mp entry
  cases same
  have listed : (c.names.fileOf? name).isSome = true := by
    rw [Batch.isSome_fileOf?_iff wellFormed apart requested, sent]
    rfl
  obtain ⟨recorded, found⟩ := Option.isSome_iff_exists.mp listed
  obtain ⟨present, named', same⟩ := Batch.fileOf?_request wellFormed requested found
  rw [named] at named'
  cases named'
  have same := Path.same_symm same
  refine ⟨file, recorded, rfl, found, same, ?_, fun once => ?_⟩
  · rw [sourceText?, found, Option.bind_some, c.store.get?_congr same, SourceStore.unit_eq_ok_iff.mp loaded]
    rfl
  · exact once (Batch.spelled_of_fileOf? requested found) (Batch.spelled_of_get? named) same file.same_refl

/-- Every document of a batch has exactly the sources that were sent in both its tables. The texts are those that were
sent. A file is recorded at the place whose address was sent, and in the same spelling if the paths of the units and
the recorded imports spell it in one way; so they do if the units were loaded and expanded. -/
theorem documents_carry_sources (built : Built graph batch)
    (requested : batch.request c.store settings = .ok (c.request, c.names)) {primary : Path}
    {documents : List (String × Json)} (made : c.documents primary = .ok documents) {contract : String} {document : Json}
    (listed : (contract, document) ∈ documents) :
    document.get? "sources" = some (.ofDict c.sourceReferences) ∧
      document.get? "sourceCodes" = some (.ofDict c.sourceTexts) ∧
      c.sourceReferences.keys = c.request.sources.keys ∧ c.sourceTexts.keys = c.request.sources.keys ∧
      ∀ name source, c.request.sources.get? name = some source →
        c.sourceTexts.get? name = some (.string source.content) ∧
        ∃ sent recorded : Path, source.urls = [sent.text] ∧
          (c.sourceReferences.get? name).bind (·.get? "file") = some (.string recorded.text) ∧ recorded.same sent = true ∧
          (SpelledOnce graph batch.units sent ∨ Workspace.Reached ⟨c.store, graph⟩ ∧
            (∀ unit ∈ batch.units, c.store.Stores unit.primary) → recorded = sent) := by
  have textsOf : c.sourceTexts.entries = c.request.sources.keys.map fun name =>
      (name, .string (((c.request.sources.get? name).map (·.content)).getD "")) := by
    refine entries_sourceTexts fun name mem => ?_
    obtain ⟨source, sent⟩ := Dict.mem_keys.mp mem
    obtain ⟨-, -, -, -, -, text, -⟩ := recorded_of_sent built requested sent
    rw [text, sent]
    rfl
  obtain ⟨references, texts⟩ := document_tables made listed
  refine ⟨references, texts, keys_sourceReferences c, ?_, fun name source sent => ⟨?_, ?_⟩⟩
  · rw [Dict.keys, textsOf, List.map_map]
    exact List.map_id c.request.sources.keys
  · rw [Dict.get?_eq_some_iff, Dict.toList, textsOf]
    refine List.mem_map.mpr ⟨name, Dict.mem_keys.mpr ⟨source, sent⟩, ?_⟩
    rw [sent]
    rfl
  · obtain ⟨file, recorded, url, found, same, -, spelled⟩ := recorded_of_sent built requested sent
    refine ⟨file, recorded, url, ?_, same, ?_⟩
    · obtain ⟨position, reference⟩ := get?_sourceReferences (Dict.mem_keys.mpr ⟨source, sent⟩)
      rw [reference, sourceReference, found]
      rfl
    · rintro (once | ⟨reached, primaries⟩)
      · exact spelled once
      · exact spelled (Batch.spelledOnce_of_reached reached primaries file)

end

/-! ## A file in two spellings -/

namespace Respelled

def importer : Path := .ofText "/p/contracts/A.sol"

def imported : Path := .ofText "/p/contracts/B.sol"

/-- The same file with a slash too many. -/
def other : Path := .ofText "/p//contracts/B.sol"

def graph : ImportGraph := ⟨[⟨imported, [], []⟩, ⟨importer, [imported], [⟨"./B.sol", imported⟩]⟩]⟩

def store : SourceStore where
  base := .ofText "/p"
  constants := Dict.empty
  units := [⟨importer, "import \"./B.sol\";\ncontract A {}\n", .primary⟩, ⟨imported, "contract B {}\n", .dependency⟩]
  aliases := Dict.empty
  vendored := none

/-- The file and its import, which is in the batch once more under its other spelling if `again` says so. -/
def batch (again : Bool) : Batch :=
  .ofUnits graph (⟨importer, [imported]⟩ :: if again then [⟨other, []⟩] else [])

theorem requests : ∀ again, ((batch again).request store .default).toOption.isSome = true := by decide +kernel

@[irreducible] def answer (again : Bool) : CompilerRequest × SourceNames :=
  ((batch again).request store .default).toOption.get (requests again)

/-- An answer of the compiler with one contract of the file. -/
def result : CompilerResult where
  diagnostics := []
  contracts := Dict.ofList [("/p/contracts/A.sol", Dict.ofList [("A", ⟨.emptyObject⟩)])]
  sourceIds := Dict.empty
  raw := .emptyObject

def compilation (again : Bool) : Compilation := ⟨store, (answer again).2, (answer again).1, result, "solc", "0.8.30"⟩

theorem requested (again : Bool) : (batch again).request (compilation again).store .default =
    .ok ((compilation again).request, (compilation again).names) := by
  have same : answer again = ((batch again).request store .default).toOption.get (requests again) := by rw [answer]
  exact eq_ok_pair same

/-- The file that the document of the contract records for a source. -/
def recorded? (again : Bool) (name : String) : Option String := do
  let documents ← ((compilation again).documents importer).toOption
  (← (← documents.find? (·.1 = "A")).2.at? ["sources", name, "file"]).text?

theorem spelledOnce (file : Path) : SpelledOnce graph (batch false).units file := by
  have two {p : Path} (spelled : Batch.Spelled graph (batch false).units p) : p = importer ∨ p = imported := by
    cases spelled with
    | primary mem => exact .inl (congrArg CompilationUnit.primary (List.mem_singleton.mp mem))
    | target mem => exact .inr (congrArg ImportEdge.target (List.mem_singleton.mp mem))
  intro p q spelled spelled' same same'
  have equal := Path.same_trans same (Path.same_symm same')
  obtain rfl | rfl := two spelled <;> obtain rfl | rfl := two spelled'
  · rfl
  · exact absurd equal (by decide)
  · exact absurd equal (by decide)
  · rfl

end Respelled

/-- The spelling that is recorded for a file is the one in which it was imported, and the address that is sent is the one
of the unit. -/
theorem recorded_ne_sent :
    (Respelled.batch true).request (Respelled.compilation true).store .default =
        .ok ((Respelled.compilation true).request, (Respelled.compilation true).names) ∧
      Respelled.recorded? true "/p//contracts/B.sol" = some "/p/contracts/B.sol" ∧
      ((Respelled.compilation true).request.sources.get? "/p//contracts/B.sol").map (·.urls) = some ["/p//contracts/B.sol"] :=
  ⟨Respelled.requested true, by decide +kernel, by decide +kernel⟩

theorem documents_carry_sources_imported :
    ∃ document references texts, (Respelled.compilation false).documents Respelled.importer = .ok [("A", document)] ∧
      document.get? "sources" = some (.ofDict references) ∧ document.get? "sourceCodes" = some (.ofDict texts) ∧
      references.keys = ["/p/contracts/A.sol", "/p/contracts/B.sol"] ∧
      texts.keys = ["/p/contracts/A.sol", "/p/contracts/B.sol"] ∧
      (references.get? "/p/contracts/B.sol").bind (·.get? "file") = some (.string "/p/contracts/B.sol") := by
  have built : Batch.Built Respelled.graph (Respelled.batch false) := Batch.Built.empty.add _
  obtain ⟨document, made⟩ := exists_document (Respelled.compilation false) Respelled.importer "A" (by decide +kernel)
  obtain ⟨sources, codes, keys, keys', each⟩ :=
    documents_carry_sources built (Respelled.requested false) made (List.mem_singleton_self _)
  have names : (Respelled.compilation false).request.sources.keys = ["/p/contracts/A.sol", "/p/contracts/B.sol"] := by
    decide +kernel
  refine ⟨document, _, _, made, sources, codes, keys.trans names, keys'.trans names, ?_⟩
  have address : ((Respelled.compilation false).request.sources.get? "/p/contracts/B.sol").map (·.urls) =
      some ["/p/contracts/B.sol"] := by decide +kernel
  obtain ⟨source, sent, urls⟩ := Option.map_eq_some_iff.mp address
  obtain ⟨-, file, recorded, url, found, -, spelled⟩ := each _ source sent
  rw [spelled (.inl (Respelled.spelledOnce file))] at found
  have text : file.text = "/p/contracts/B.sol" := List.singleton_inj.mp (url.symm.trans urls)
  rw [found, text]

end Artifact.Compilation

end SolidityBuild
