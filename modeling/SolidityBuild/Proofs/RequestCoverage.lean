import SolidityBuild.Proofs.Deduplication
import SolidityBuild.Proofs.ImportClosures

/-!
# What a request covers

The walk that registers the files of a unit follows the recorded imports and does not look at the closure of the
unit. As long as all its registrations are accepted, it reaches the same files: those are the files whose content
a request sends, whatever units were dropped on the way.
-/

namespace SolidityBuild

open SolidityBuild.Path (Listed listed_append listed_singleton listed_of_mem)

namespace NameRegistry

/-! ## The registrations of a walk -/

/-- The registrations that follow from an import of a file with the given names. -/
def importCalls (importerNames : List String) (edge : ImportEdge) : List Registration :=
  if Source.Import.isRelative edge.reference then
    importerNames.map fun name => ⟨joined name edge.reference, edge.target, false⟩
  else [⟨edge.reference, edge.target, false⟩]

theorem registerImport_eq (importerNames : List String) (registry : NameRegistry) (edge : ImportEdge) :
    registerImport importerNames registry edge = registry.registerAll (importCalls importerNames edge) := by
  unfold registerImport importCalls
  split
  · rw [registerAll, List.foldl_map]
  · rfl

theorem foldl_registerImport (importerNames : List String) (registry : NameRegistry) (edges : List ImportEdge) :
    edges.foldl (registerImport importerNames) registry =
      registry.registerAll (edges.flatMap (importCalls importerNames)) := by
  induction edges generalizing registry with
  | nil => rfl
  | cons edge rest ih => rw [List.foldl_cons, ih, registerImport_eq, List.flatMap_cons, registerAll_append]

/-- The registrations of a walk over imports in their order. -/
def walkCalls (graph : ImportGraph) (registry : NameRegistry) (seen : List Path) : (queue : List Path) →
    List Registration
  | [] => []
  | importer :: queue =>
    let calls := (graph.edges importer).flatMap (importCalls (registry.namesOf importer))
    let known := Workspace.addNew seen ((graph.edges importer).map (·.target))
    calls ++ walkCalls graph (registry.registerAll calls) known (queue ++ known.drop seen.length)
termination_by queue => unseen seen graph.allEdges + queue.length
decreasing_by
  have bound := unseen_addNew graph.allEdges (graph.edges importer) (edges_subset graph importer) seen
  have grows := length_addNew seen ((graph.edges importer).map (·.target))
  simp only [List.length_append, List.length_drop, List.length_cons]
  omega

theorem registerReachable_eq (graph : ImportGraph) (registry : NameRegistry) (seen queue : List Path) :
    registerReachable graph registry seen queue = registry.registerAll (walkCalls graph registry seen queue) := by
  induction registry, seen, queue using walkCalls.induct graph with
  | case1 registry seen => rw [registerReachable, walkCalls, registerAll_nil]
  | case2 registry seen importer queue calls known ih =>
    rw [registerReachable, walkCalls, registerAll_append, foldl_registerImport]
    exact ih

/-- The registrations that a unit makes. -/
def unitCalls (graph : ImportGraph) (registry : NameRegistry) (primary : Path) : List Registration :=
  ⟨primary.text, primary, true⟩ ::
    walkCalls graph (registry.register primary.text primary true) [primary] [primary]

theorem registerUnit_eq (graph : ImportGraph) (registry : NameRegistry) (primary : Path) :
    registerUnit graph registry primary = registry.registerAll (unitCalls graph registry primary) :=
  registerReachable_eq graph _ _ _

/-! ## Accepted registrations -/

/-- No registration is passed over: when its turn comes, its name stands for no other file. -/
def AllFree : NameRegistry → List Registration → Prop
  | _, [] => True
  | registry, r :: rest => registry.Free r.name r.file ∧ AllFree (registry.register r.name r.file r.isPrimary) rest

instance (registry : NameRegistry) (name : String) (file : Path) : Decidable (registry.Free name file) :=
  inferInstanceAs (Decidable (∀ present ∈ registry.names.get? name, present.same file = true))

instance decidableAllFree : (registry : NameRegistry) → (registrations : List Registration) →
    Decidable (AllFree registry registrations)
  | _, [] => isTrue trivial
  | registry, r :: rest =>
    have := decidableAllFree (registry.register r.name r.file r.isPrimary) rest
    inferInstanceAs (Decidable (_ ∧ _))

theorem allFree_append {registry : NameRegistry} {first second : List Registration} :
    AllFree registry (first ++ second) ↔ AllFree registry first ∧ AllFree (registry.registerAll first) second := by
  induction first generalizing registry with
  | nil => simp [AllFree]
  | cons r rest ih => simp [AllFree, ih, and_assoc]

/-- Whether some name stands for a file. -/
def Named (registry : NameRegistry) (file : Path) : Prop :=
  ∃ name present, registry.names.get? name = some present ∧ present.same file = true

theorem Extends.isNamed {registry later : NameRegistry} (ext : Extends registry later) {file : Path}
    (named : registry.Named file) : later.Named file := by
  obtain ⟨name, present, found, same⟩ := named
  exact ⟨name, present, ext.get? found, same⟩

theorem Named.congr {registry : NameRegistry} {file other : Path} (named : registry.Named file)
    (same : file.same other = true) : registry.Named other := by
  obtain ⟨name, present, found, here⟩ := named
  exact ⟨name, present, found, Path.same_trans here same⟩

theorem named_iff_namesOf {registry : NameRegistry} {file : Path} :
    registry.Named file ↔ ∃ name, name ∈ registry.namesOf file := by
  simp [Named, namesOf, Dict.get?_eq_some_iff]

theorem named_register {registry : NameRegistry} {name : String} {file : Path} (free : registry.Free name file)
    (isPrimary : Bool) : (registry.register name file isPrimary).Named file := by
  have found : (registry.register name file isPrimary).names.get? name =
      some ((registry.names.get? name).getD file) := by rw [get?_register, if_pos rfl]
  refine ⟨name, _, found, ?_⟩
  cases old : registry.names.get? name with
  | none => exact file.same_refl
  | some present => exact free present old

theorem named_of_allFree {registry : NameRegistry} {registrations : List Registration}
    (free : AllFree registry registrations) {r : Registration} (mem : r ∈ registrations) :
    (registry.registerAll registrations).Named r.file := by
  induction registrations generalizing registry with
  | nil => cases mem
  | cons first rest ih =>
    rcases List.mem_cons.mp mem with rfl | later
    · exact (extends_registerAll _ rest).isNamed (named_register free.1 r.isPrimary)
    · exact ih free.2 later

/-! ## The files of a walk -/

theorem file_of_mem_importCalls {importerNames : List String} {edge : ImportEdge} {r : Registration}
    (mem : r ∈ importCalls importerNames edge) : r.file = edge.target := by
  unfold importCalls at mem
  split at mem
  · obtain ⟨name, _, rfl⟩ := List.mem_map.mp mem
    rfl
  · rw [List.mem_singleton.mp mem]

theorem exists_mem_importCalls {importerNames : List String} (named : ∃ name, name ∈ importerNames) (edge : ImportEdge) :
    ∃ r ∈ importCalls importerNames edge, r.file = edge.target := by
  obtain ⟨name, mem⟩ := named
  unfold importCalls
  split
  · exact ⟨_, List.mem_map_of_mem mem, rfl⟩
  · exact ⟨_, List.mem_singleton_self _, rfl⟩

theorem exists_addNew_eq (seen added : List Path) :
    ∃ new, Workspace.addNew seen added = seen ++ new ∧ new ⊆ added := by
  induction added using List.reverseRecOn with
  | nil => exact ⟨[], by simp [Workspace.addNew], List.Subset.refl _⟩
  | append_singleton added p ih =>
    obtain ⟨new, whole, inside⟩ := ih
    rw [Workspace.addNew_concat, whole]
    split
    · exact ⟨new, rfl, List.Subset.trans inside (List.subset_append_left _ _)⟩
    · refine ⟨new ++ [p], List.append_assoc .., List.append_subset.mpr ⟨?_, List.subset_append_right _ _⟩⟩
      exact List.Subset.trans inside (List.subset_append_left _ _)

/-- A walk registers only files that are reached by imports from its queue. -/
theorem reaches_of_mem_walkCalls {graph : ImportGraph} {registry : NameRegistry} {seen queue : List Path}
    {r : Registration} (mem : r ∈ walkCalls graph registry seen queue) :
    ∃ p ∈ queue, Relation.TransGen graph.Imports p r.file := by
  induction registry, seen, queue using walkCalls.induct graph with
  | case1 registry seen =>
    rw [walkCalls] at mem
    cases mem
  | case2 registry seen importer queue calls known ih =>
    rw [walkCalls] at mem
    rcases List.mem_append.mp mem with here | later
    · obtain ⟨edge, follows, call⟩ := List.mem_flatMap.mp here
      refine ⟨importer, by simp, .single ⟨edge, follows, ?_⟩⟩
      rw [file_of_mem_importCalls call]
      exact Path.same_refl _
    · obtain ⟨p, waiting, reaches⟩ := ih later
      rcases List.mem_append.mp waiting with behind | added
      · exact ⟨p, List.mem_cons_of_mem _ behind, reaches⟩
      · obtain ⟨new, whole, inside⟩ := exists_addNew_eq seen ((graph.edges importer).map (·.target))
        have isNew : p ∈ (Workspace.addNew seen ((graph.edges importer).map (·.target))).drop seen.length := added
        rw [whole, List.drop_left] at isNew
        obtain ⟨edge, follows, rfl⟩ := List.mem_map.mp (inside isNew)
        exact ⟨importer, by simp, .head ⟨edge, follows, Path.same_refl _⟩ reaches⟩

/-- What holds while a walk goes on: the seen files have names, and their imports have been seen, too, unless they
are still in the queue. -/
structure Frontier (graph : ImportGraph) (registry : NameRegistry) (seen queue : List Path) : Prop where
  waiting : queue ⊆ seen
  named : ∀ p ∈ seen, registry.Named p
  followed : ∀ p ∈ seen, p ∈ queue ∨ ∀ edge ∈ graph.edges p, Listed seen edge.target

/-- Taking a file from the queue. -/
theorem Frontier.step {graph : ImportGraph} {registry : NameRegistry} {seen queue : List Path} {importer : Path}
    (frontier : Frontier graph registry seen (importer :: queue)) {calls : List Registration} {known : List Path}
    (calls_eq : calls = (graph.edges importer).flatMap (importCalls (registry.namesOf importer)))
    (known_eq : known = Workspace.addNew seen ((graph.edges importer).map (·.target)))
    (free : AllFree registry calls) :
    Frontier graph (registry.registerAll calls) known (queue ++ known.drop seen.length) := by
  obtain ⟨new, whole, inside⟩ := exists_addNew_eq seen ((graph.edges importer).map (·.target))
  have covers := (addNew_spec seen ((graph.edges importer).map (·.target))).2
  rw [← known_eq] at whole covers
  have added : known.drop seen.length = new := by rw [whole, List.drop_left]
  have kept : seen ⊆ known := whole ▸ List.subset_append_left _ _
  have importer_named := frontier.named importer (frontier.waiting (by simp))
  rw [added]
  refine ⟨?waiting, ?named, ?followed⟩
  case waiting =>
    intro p mem
    rcases List.mem_append.mp mem with behind | isNew
    · exact kept (frontier.waiting (List.mem_cons_of_mem _ behind))
    · exact whole ▸ List.mem_append_right _ isNew
  case named =>
    intro p mem
    rcases List.mem_append.mp (whole ▸ mem) with old | isNew
    · exact (extends_registerAll _ calls).isNamed (frontier.named p old)
    · -- A new file is the target of an import, which was registered under a name that follows from the importer's.
      obtain ⟨edge, follows, rfl⟩ := List.mem_map.mp (inside isNew)
      obtain ⟨r, call, file⟩ := exists_mem_importCalls (named_iff_namesOf.mp importer_named) edge
      have mem : r ∈ calls := calls_eq ▸ List.mem_flatMap.mpr ⟨edge, follows, call⟩
      exact file ▸ named_of_allFree free mem
  case followed =>
    intro p mem
    rcases List.mem_append.mp (whole ▸ mem) with old | isNew
    · rcases frontier.followed p old with waits | done
      · rcases List.mem_cons.mp waits with rfl | behind
        · exact .inr fun edge follows => covers _ (List.mem_map_of_mem follows)
        · exact .inl (List.mem_append_left _ behind)
      · refine .inr fun edge follows => ?_
        obtain ⟨q, there, same⟩ := done edge follows
        exact ⟨q, kept there, same⟩
    · exact .inl (List.mem_append_right _ isNew)

/-- A walk goes on until the queue is empty. -/
theorem Frontier.walk {graph : ImportGraph} {registry : NameRegistry} {seen queue : List Path}
    (frontier : Frontier graph registry seen queue) (free : AllFree registry (walkCalls graph registry seen queue)) :
    ∃ reached, seen ⊆ reached ∧ Frontier graph (registerReachable graph registry seen queue) reached [] := by
  induction registry, seen, queue using walkCalls.induct graph with
  | case1 registry seen =>
    rw [registerReachable]
    exact ⟨seen, List.Subset.refl _, frontier⟩
  | case2 registry seen importer queue calls known ih =>
    rw [walkCalls, allFree_append] at free
    rw [registerReachable, foldl_registerImport]
    obtain ⟨reached, inside, final⟩ := ih (frontier.step rfl rfl free.1) free.2
    obtain ⟨new, whole, _⟩ := exists_addNew_eq seen ((graph.edges importer).map (·.target))
    have kept : seen ⊆ known := fun p mem => by
      change p ∈ Workspace.addNew seen ((graph.edges importer).map (·.target))
      rw [whole]
      exact List.mem_append_left _ mem
    exact ⟨reached, List.Subset.trans kept inside, final⟩

/-- When the queue is empty, everything that a seen file reaches has been seen. -/
theorem Frontier.listed_of_reaches {graph : ImportGraph} {registry : NameRegistry} {reached : List Path}
    (frontier : Frontier graph registry reached []) {p q : Path} (mem : p ∈ reached)
    (reaches : Relation.TransGen graph.Imports p q) : Listed reached q := by
  have next {p q : Path} (listed : Listed reached p) (imports : graph.Imports p q) : Listed reached q := by
    obtain ⟨known, there, here⟩ := listed
    obtain ⟨edge, follows, same⟩ := imports
    rw [← graph.edges_congr here] at follows
    have done := (frontier.followed known there).resolve_left List.not_mem_nil
    exact (done edge follows).congr same
  induction reaches with
  | single imports => exact next (listed_of_mem mem) imports
  | tail _ imports ih => exact next ih imports

theorem named_registerUnit {graph : ImportGraph} {registry : NameRegistry} {primary : Path}
    (free : AllFree registry (unitCalls graph registry primary)) {q : Path}
    (reaches : primary.same q = true ∨ Relation.TransGen graph.Imports primary q) :
    (registerUnit graph registry primary).Named q := by
  obtain ⟨first, rest⟩ := free
  have start : Frontier graph (registry.register primary.text primary true) [primary] [primary] := by
    refine ⟨List.Subset.refl _, fun p mem => ?_, fun p mem => .inl mem⟩
    rw [List.mem_singleton.mp mem]
    exact named_register first true
  obtain ⟨reached, inside, final⟩ := start.walk rest
  have mem : primary ∈ reached := inside (by simp)
  rcases reaches with same | reaches
  · exact (final.named primary mem).congr same
  · obtain ⟨known, there, same⟩ := final.listed_of_reaches mem reaches
    exact (final.named known there).congr same

end NameRegistry

namespace Batch

open NameRegistry (AllFree Named Extends WellFormed unitCalls)

/-! ## The registrations of a batch -/

/-- The registrations that adding units makes. -/
def calls (graph : ImportGraph) : NameRegistry → List CompilationUnit → List Registration
  | _, [] => []
  | registry, unit :: rest =>
    unitCalls graph registry unit.primary ++ calls graph (registry.registerUnit graph unit.primary) rest

theorem registry_foldl_add (graph : ImportGraph) (units : List CompilationUnit) (batch : Batch) :
    (units.foldl (fun batch unit => batch.add graph unit) batch).registry =
      batch.registry.registerAll (calls graph batch.registry units) := by
  induction units generalizing batch with
  | nil => rfl
  | cons unit rest ih =>
    rw [List.foldl_cons, ih, calls, NameRegistry.registerAll_append, ← NameRegistry.registerUnit_eq]
    rfl

/-- The registry of a batch is what its registrations make of an empty one. -/
theorem registry_ofUnits (graph : ImportGraph) (units : List CompilationUnit) :
    (ofUnits graph units).registry = NameRegistry.empty.registerAll (calls graph .empty units) :=
  registry_foldl_add graph units .empty

theorem reaches_of_mem_calls {graph : ImportGraph} {registry : NameRegistry} {units : List CompilationUnit}
    {r : Registration} (mem : r ∈ calls graph registry units) :
    ∃ unit ∈ units, unit.primary.same r.file = true ∨ Relation.TransGen graph.Imports unit.primary r.file := by
  induction units generalizing registry with
  | nil => cases mem
  | cons unit rest ih =>
    rcases List.mem_append.mp mem with here | later
    · refine ⟨unit, by simp, ?_⟩
      rcases List.mem_cons.mp here with rfl | walked
      · exact .inl (Path.same_refl _)
      · obtain ⟨p, single, reaches⟩ := NameRegistry.reaches_of_mem_walkCalls walked
        exact .inr (List.mem_singleton.mp single ▸ reaches)
    · obtain ⟨other, listed, reaches⟩ := ih later
      exact ⟨other, List.mem_cons_of_mem _ listed, reaches⟩

/-- If no registration is passed over, all files that the units reach have names. -/
theorem named_of_allFree {graph : ImportGraph} {registry : NameRegistry} {units : List CompilationUnit}
    (free : AllFree registry (calls graph registry units)) {unit : CompilationUnit} (mem : unit ∈ units) {q : Path}
    (reaches : unit.primary.same q = true ∨ Relation.TransGen graph.Imports unit.primary q) :
    (registry.registerAll (calls graph registry units)).Named q := by
  induction units generalizing registry with
  | nil => cases mem
  | cons first rest ih =>
    rw [calls, NameRegistry.allFree_append] at free
    rw [calls, NameRegistry.registerAll_append]
    rw [← NameRegistry.registerUnit_eq] at free ⊢
    rcases List.mem_cons.mp mem with rfl | later
    · exact (NameRegistry.extends_registerAll _ _).isNamed (NameRegistry.named_registerUnit free.1 reaches)
    · exact ih free.2 later

/-! ## The files of a request -/

/-- Whether a file stands behind a name that is sent with content. -/
def Sends (request : CompilerRequest) (names : SourceNames) (file : Path) : Prop :=
  ∃ name, (request.sources.get? name).isSome = true ∧
    ∃ present, names.fileOf? name = some present ∧ present.same file = true

/-- A file has just one owner, and its content is sent under the name of this. -/
def OwnedOnce (store : SourceStore) (request : CompilerRequest) (names : SourceNames) (file : Path) : Prop :=
  ∃ owner, names.Owns owner file ∧ (∀ other, names.Owns other file → other = owner) ∧
    ∃ entry stored, request.sources.get? owner = some entry ∧ store.unit file = .ok stored ∧
      entry.content = stored.content

/-- Whether a file belongs to one of some units. -/
def Covers (units : List CompilationUnit) (file : Path) : Prop := ∃ unit ∈ units, Listed unit.files file

/-- The files of a unit whose closure is right are its primary file and all that this reaches. -/
theorem listed_files_iff {graph : ImportGraph} {unit : CompilationUnit}
    (closed : graph.IsClosure unit.primary unit.closure) {file : Path} :
    Listed unit.files file ↔ unit.primary.same file = true ∨ Relation.TransGen graph.Imports unit.primary file := by
  rw [CompilationUnit.files, listed_append, listed_singleton, closed.reached]
  exact or_comm

section

variable {graph : ImportGraph} {units : List CompilationUnit} {store : SourceStore} {settings : CompilerSettings}
  {request : CompilerRequest} {names : SourceNames}

theorem covers_of_get? (closed : ∀ unit ∈ units, graph.IsClosure unit.primary unit.closure) {name : String}
    {file : Path} (named : (ofUnits graph units).registry.names.get? name = some file) : Covers units file := by
  rw [registry_ofUnits] at named
  rcases NameRegistry.get?_registerAll_cases named with nothing | ⟨r, mem, rfl⟩
  · cases nothing
  · obtain ⟨unit, listed, reaches⟩ := reaches_of_mem_calls mem
    exact ⟨unit, listed, (listed_files_iff (closed unit listed)).mpr reaches⟩

theorem exists_request (closed : ∀ unit ∈ units, graph.IsClosure unit.primary unit.closure)
    (loaded : ∀ unit ∈ units, ∀ file ∈ unit.files, ∃ stored, store.unit file = .ok stored)
    (settings : CompilerSettings) : ∃ request names, (ofUnits graph units).request store settings = .ok (request, names) := by
  have each : ∀ sent ∈ withContent (ofUnits graph units).registry,
      ∃ entry, (do return (sent.1, ← entryOf store sent.2.1)) = Except.ok (ε := Error) entry := by
    rintro ⟨name, file, sent⟩ mem
    obtain ⟨unit, listed, known, here, same⟩ := covers_of_get? closed (mem_withContent.mp mem).1
    obtain ⟨stored, found⟩ := loaded unit listed known here
    have found' : store.unit file = .ok stored := by
      rw [SourceStore.unit_eq_ok_iff, ← store.get?_congr same]
      exact SourceStore.unit_eq_ok_iff.mp found
    exact ⟨_, bind_eq_ok_iff.mpr ⟨_, bind_eq_ok_iff.mpr ⟨stored, found', rfl⟩, rfl⟩⟩
  obtain ⟨entries, all⟩ := exists_mapM_eq_ok each
  exact ⟨_, _, bind_eq_ok_iff.mpr ⟨entries, all, rfl⟩⟩

theorem wellFormed_and_apart (graph : ImportGraph) (units : List CompilationUnit) :
    WellFormed (ofUnits graph units).registry ∧ NameRegistry.OwnersApart (ofUnits graph units).registry := by
  refine ⟨wellFormed_ofUnits graph units, ?_⟩
  rw [registry_ofUnits]
  exact NameRegistry.ownersApart_registerAll _

theorem sends_iff_named (requested : (ofUnits graph units).request store settings = .ok (request, names)) {file : Path} :
    Sends request names file ↔ (ofUnits graph units).registry.Named file := by
  obtain ⟨wellFormed, apart⟩ := wellFormed_and_apart graph units
  constructor
  · rintro ⟨name, _, present, found, same⟩
    obtain ⟨known, named, here⟩ := fileOf?_request wellFormed requested found
    exact ⟨name, known, named, Path.same_trans here same⟩
  · rintro ⟨name, known, named, same⟩
    obtain ⟨owner, owned⟩ := wellFormed.owned named
    obtain ⟨present, named', isKnown, owned'⟩ := wellFormed.get?_owner owned
    obtain ⟨entry, sent, _⟩ := (sendsContent_iff wellFormed requested named').mpr (.inl owned')
    have content : (request.sources.get? owner).isSome = true := by simp [sent]
    obtain ⟨there, isFile⟩ := Option.isSome_iff_exists.mp ((isSome_fileOf?_iff wellFormed apart requested).mpr content)
    obtain ⟨present', named'', same'⟩ := fileOf?_request wellFormed requested isFile
    rw [named'] at named''
    cases named''
    exact ⟨owner, content, there, isFile,
      Path.same_trans (Path.same_symm same') (Path.same_trans isKnown same)⟩

theorem ownedOnce_of_named (requested : (ofUnits graph units).request store settings = .ok (request, names)) {file : Path}
    (isNamed : (ofUnits graph units).registry.Named file) : OwnedOnce store request names file := by
  obtain ⟨wellFormed, apart⟩ := wellFormed_and_apart graph units
  obtain ⟨name, known, named, isFile⟩ := isNamed
  obtain ⟨owner, owned⟩ := wellFormed.owned named
  rw [NameRegistry.owner?_congr _ isFile] at owned
  refine ⟨owner, (owns_iff apart requested).mpr owned, fun other owns => ?_, ?_⟩
  · exact Option.some.inj (((owns_iff apart requested).mp owns).symm.trans owned)
  · obtain ⟨present, named', same, owned'⟩ := wellFormed.get?_owner owned
    obtain ⟨entry, sent, found⟩ := (sendsContent_iff wellFormed requested named').mpr (.inl owned')
    obtain ⟨stored, loaded, made⟩ := bind_eq_ok_iff.mp found
    cases made
    refine ⟨_, stored, sent, ?_, rfl⟩
    rw [SourceStore.unit_eq_ok_iff, ← store.get?_congr same]
    exact SourceStore.unit_eq_ok_iff.mp loaded

end

/-- A batch that is left by adding and retaining units makes the request of a new batch of the units that are left.
It is made as soon as their files are loaded. If no registration is passed over, the files whose content it sends
are those of the units, and each of them has one owner, under which its content is sent. -/
theorem request_covers_units {graph : ImportGraph} (reached : graph.Reached) {batch : Batch} (built : Built graph batch)
    (computed : ∀ unit ∈ batch.units, graph.closure? unit.primary = some unit.closure) (store : SourceStore)
    (settings : CompilerSettings) :
    batch.request store settings = (ofUnits graph batch.units).request store settings ∧
      ((∀ unit ∈ batch.units, ∀ file ∈ unit.files, ∃ stored, store.unit file = .ok stored) →
        ∃ request names, batch.request store settings = .ok (request, names)) ∧
      ∀ request names, batch.request store settings = .ok (request, names) →
        AllFree .empty (calls graph .empty batch.units) →
          (∀ file, Sends request names file ↔ Covers batch.units file) ∧
            ∀ file, Sends request names file → OwnedOnce store request names file := by
  have whole := built.eq_ofUnits
  have closed : ∀ unit ∈ batch.units, graph.IsClosure unit.primary unit.closure :=
    fun unit mem => reached.sound.isClosure (computed unit mem)
  generalize batch.units = units at whole closed
  subst whole
  refine ⟨rfl, fun loaded => exists_request closed loaded settings, fun request names requested free =>
    ⟨fun file => ?_, fun file sends => ownedOnce_of_named requested ((sends_iff_named requested).mp sends)⟩⟩
  rw [sends_iff_named requested]
  constructor
  · rintro ⟨name, present, named, same⟩
    obtain ⟨unit, mem, listed⟩ := covers_of_get? closed named
    exact ⟨unit, mem, listed.congr same⟩
  · rintro ⟨unit, mem, listed⟩
    rw [registry_ofUnits]
    exact named_of_allFree free mem ((listed_files_iff (closed unit mem)).mp listed)

namespace Pruned

open Workspace.Diamond (path project)

/-- The graph of a file whose imports share a third one. -/
def graph : ImportGraph :=
  ⟨[⟨path "D.sol", [], []⟩, ⟨path "B.sol", [path "D.sol"], [⟨"./D.sol", path "D.sol"⟩]⟩,
    ⟨path "C.sol", [path "D.sol"], [⟨"./D.sol", path "D.sol"⟩]⟩,
    ⟨path "A.sol", [path "D.sol", path "B.sol", path "C.sol"],
      [⟨"./B.sol", path "B.sol"⟩, ⟨"./C.sol", path "C.sol"⟩]⟩]⟩

theorem reached : graph.Reached := by
  have answered : (Workspace.closure ⟨Workspace.Diamond.store, .empty⟩ project (path "A.sol")).2.graph.expansions =
      graph.expansions := by decide +kernel
  have same : (Workspace.closure ⟨Workspace.Diamond.store, .empty⟩ project (path "A.sol")).2.graph = graph :=
    congrArg ImportGraph.mk answered
  exact same ▸ .closure Workspace.Diamond.store project (path "A.sol") .empty

def store : SourceStore where
  base := .ofText "/p"
  constants := Dict.empty
  units := [⟨path "B.sol", "import \"./D.sol\";\n", .primary⟩, ⟨path "D.sol", "contract D {}\n", .dependency⟩]
  aliases := Dict.empty
  vendored := none

/-- The unit of the file is dropped, and so are the names that only it gives; the one of an import is left. -/
def batch : Batch :=
  ((Batch.empty.add graph ⟨path "A.sol", [path "D.sol", path "B.sol", path "C.sol"]⟩).add graph
    ⟨path "B.sol", [path "D.sol"]⟩).retain graph (·.primary = path "B.sol")

theorem units : batch.units = [⟨path "B.sol", [path "D.sol"]⟩] := by decide +kernel

theorem computed : ∀ unit ∈ batch.units, graph.closure? unit.primary = some unit.closure := by decide +kernel

theorem loaded : ∀ unit ∈ batch.units, ∀ file ∈ unit.files, (store.unit file).toOption.isSome = true := by
  decide +kernel

theorem free : NameRegistry.AllFree .empty (calls graph .empty batch.units) := by decide +kernel

end Pruned

theorem request_covers_units_pruned :
    ∃ request names, Pruned.batch.request Pruned.store .default = .ok (request, names) ∧
      ∀ file, Sends request names file ↔
        Listed [Workspace.Diamond.path "D.sol", Workspace.Diamond.path "B.sol"] file := by
  have built : Built Pruned.graph Pruned.batch := ((Built.empty.add _).add _).retain _
  obtain ⟨_, succeeds, covers⟩ := request_covers_units Pruned.reached built Pruned.computed Pruned.store .default
  obtain ⟨request, names, requested⟩ :=
    succeeds fun unit mem file listed => ⟨_, eq_ok_of_isSome (Pruned.loaded unit mem file listed)⟩
  refine ⟨request, names, requested, fun file => ((covers request names requested Pruned.free).1 file).trans ?_⟩
  simp [Covers, Pruned.units, CompilationUnit.files]

end Batch

end SolidityBuild
