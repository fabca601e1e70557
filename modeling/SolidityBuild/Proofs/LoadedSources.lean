import SolidityBuild.Proofs.EarlyFailure
import SolidityBuild.Proofs.RequestCoverage
import SolidityBuild.Proofs.UndisturbedBuild

/-!
# What is loaded when a run asks the compiler

A file that is expanded is loaded, and so are all files that its imports reach. So once all selected files of a
run are expanded, nothing that is made of their units can miss a source (`Expanded.loaded`): neither hashes, nor
modules, nor flattened sources, nor documents, nor requests. What can fail from then on are the compiler and the
writes.
-/

namespace SolidityBuild.Build

open Batch (Built)

/-- The tree with the output directories in place, the selected files with their closures, and what is loaded then. -/
def expandSelected (tree : FileTree) (config : Configuration) (files : List Path) :
    Result (FileTree × List CompilationUnit × Workspace) :=
  match Artifact.ensureDirectories config.createDirectories (Artifact.directories config) tree with
  | (.error e, _) => .error e
  | (.ok (), ready) => do
    let (chosen, store) ← (SourceStore.new config.baseDirectory config.constants).loadPrimaries ready files
    let (units, w) := expandAll ready ⟨store, .empty⟩ chosen
    return (ready, ← units, w)

/-- A run has its output directories, has loaded the selected files, and has expanded all of them. -/
def Expanded (tree : FileTree) (config : Configuration) (files : List Path) (ready : FileTree)
    (units : List CompilationUnit) (w : Workspace) : Prop :=
  expandSelected tree config files = .ok (ready, units, w)

/-- How a run can fail once all selected files are expanded. -/
inductive LateFailure (tree : FileTree) (config : Configuration) (toolchain : Toolchain) (files : List Path) :
    Error → Prop
  /-- The compiler takes too long. -/
  | timeout (request : CompilerRequest) (limit : Nat) :
      config.timeout = some limit → 1000 * limit < (toolchain.run request).duration →
        LateFailure tree config toolchain files (.timeout limit)
  /-- The compiler does not answer. -/
  | toolchain (request : CompilerRequest) (e : Error) :
      (toolchain.run request).result = .error e → LateFailure tree config toolchain files e
  /-- The compiler reports errors. -/
  | diagnostics (request : CompilerRequest) (result : CompilerResult) :
      toolchain.compile config.timeout request = .ok result → result.hasErrors = true →
        LateFailure tree config toolchain files (.diagnostics (shownDiagnostics config result))
  /-- An output is not written. -/
  | write (p : Path) (fault : Fault) : FailsToWrite tree config toolchain files (.file p fault) →
      LateFailure tree config toolchain files (.file p fault)

section

variable {tree ready : FileTree} {config : Configuration} {toolchain : Toolchain} {files chosen : List Path}
  {w after : Workspace} {units : List CompilationUnit} {unit : CompilationUnit} {plan : Plan} {e : Error}

theorem expanded_iff : Expanded tree config files ready units w ↔
    Artifact.ensureDirectories config.createDirectories (Artifact.directories config) tree = (.ok (), ready) ∧
      ∃ chosen store,
        (SourceStore.new config.baseDirectory config.constants).loadPrimaries ready files = .ok (chosen, store) ∧
          expandAll ready ⟨store, .empty⟩ chosen = (.ok units, w) := by
  unfold Expanded expandSelected
  split
  · next same => simp [same]
  next found same =>
  rw [same]
  constructor
  · intro expanded
    obtain ⟨⟨chosen, store⟩, loaded, expanded⟩ := bind_eq_ok_iff.mp expanded
    obtain ⟨units, all, expanded⟩ := bind_eq_ok_iff.mp expanded
    cases expanded
    exact ⟨rfl, chosen, store, loaded, Prod.ext all rfl⟩
  · rintro ⟨here, chosen, store, loaded, all⟩
    cases here
    refine bind_eq_ok_iff.mpr ⟨_, loaded, ?_⟩
    dsimp only
    rw [all]
    rfl

/-! ## Closures -/

/-- The closures of expanded files are recorded. -/
theorem closure?_expandAll (sound : w.graph.Sound) (expanded : expandAll ready w chosen = (.ok units, after))
    (mem : unit ∈ units) : after.graph.closure? unit.primary = some unit.closure := by
  induction chosen generalizing w units with
  | nil =>
    cases expanded
    cases mem
  | cons primary rest ih =>
    obtain ⟨advances, recorded⟩ := Workspace.closure_advances ready w primary sound
    unfold expandAll at expanded
    split at expanded
    · cases expanded
    next closure w₁ same =>
    rw [same] at advances recorded
    split at expanded
    · cases expanded
    next units₁ w₂ later =>
    cases expanded
    rcases List.mem_cons.mp mem with rfl | others
    · exact (advances_expandAll advances.sound later).grows.closure? (recorded closure rfl)
    · exact ih advances.sound later others

theorem Expanded.isClosure (expanded : Expanded tree config files ready units w) (mem : unit ∈ units) :
    w.graph.IsClosure unit.primary unit.closure := by
  obtain ⟨_, chosen, store, _, all⟩ := expanded_iff.mp expanded
  have sound := (advances_expandAll (w := ⟨store, .empty⟩) .empty all).sound
  exact sound.isClosure (closure?_expandAll .empty all mem)

/-- A file that was expanded is loaded. -/
theorem Expanded.loaded_of_expansion? (expanded : Expanded tree config files ready units w) {p : Path}
    (known : (w.graph.expansion? p).isSome = true) : ∃ stored, w.store.unit p = .ok stored := by
  obtain ⟨_, chosen, store, _, all⟩ := expanded_iff.mp expanded
  obtain ⟨x, found⟩ := Option.isSome_iff_exists.mp known
  have here : x.file.same p = true := by simpa using List.find?_some found
  rcases (advances_expandAll (w := ⟨store, .empty⟩) .empty all).readFrom x (List.mem_of_find?_eq_some found) with
    before | ⟨stored, there, _⟩
  · cases before
  · refine ⟨stored, SourceStore.unit_eq_ok_iff.mpr ?_⟩
    rw [← w.store.get?_congr here]
    exact there

/-- All files of all units are loaded. -/
theorem Expanded.loaded (expanded : Expanded tree config files ready units w) (mem : unit ∈ units) {file : Path}
    (inside : file ∈ unit.files) : ∃ stored, w.store.unit file = .ok stored := by
  have closed := expanded.isClosure mem
  refine expanded.loaded_of_expansion? (closed.recorded file ?_)
  rw [CompilationUnit.files, List.mem_append, List.mem_singleton] at inside
  rw [List.mem_cons]
  exact inside.symm

/-! ## What is made of units -/

/-- What is made of loaded files one by one is made of all of them. -/
theorem exists_mapM_of_loaded {α : Type} {store : SourceStore}
    (loaded : ∀ file ∈ files, ∃ stored, store.unit file = .ok stored) (make : Path → SourceUnit → α) :
    ∃ made, files.mapM (fun file => do return make file (← store.unit file)) = .ok made := by
  refine exists_mapM_eq_ok fun file mem => ?_
  obtain ⟨stored, found⟩ := loaded file mem
  exact ⟨make file stored, bind_eq_ok_iff.mpr ⟨stored, found, rfl⟩⟩

theorem exists_hashes {store : SourceStore} (loaded : ∀ file ∈ unit.files, ∃ stored, store.unit file = .ok stored) :
    ∃ hashes, store.hashes unit.files = .ok hashes := by
  obtain ⟨entries, all⟩ := exists_mapM_of_loaded loaded fun file stored => (file.key store.base, stored.hash)
  exact ⟨_, bind_eq_ok_iff.mpr ⟨entries, all, rfl⟩⟩

theorem exists_flattened {store : SourceStore} (loaded : ∀ file ∈ unit.files, ∃ stored, store.unit file = .ok stored) :
    ∃ text, Artifact.flattened store unit = .ok text := by
  obtain ⟨parts, all⟩ := exists_mapM_of_loaded loaded fun file stored =>
    "\n\n" ++ Artifact.fileMarker ++ file.key store.base ++ "\n" ++ Source.Import.stripped stored.content
  exact ⟨_, bind_eq_ok_iff.mpr ⟨parts, all, rfl⟩⟩

theorem exists_documents (c : Artifact.Compilation) {primary : Path}
    (loaded : ∃ stored, c.store.unit primary = .ok stored) :
    ∃ documents, c.documents primary = .ok documents := by
  obtain ⟨stored, found⟩ := loaded
  unfold Artifact.Compilation.documents
  cases c.names.nameOf? primary with
  | none => exact ⟨[], rfl⟩
  | some name => exact ⟨_, bind_eq_ok_iff.mpr ⟨stored, found, rfl⟩⟩

/-- All outputs of units whose files are loaded are rendered. -/
theorem exists_outputs (c : Artifact.Compilation)
    (loaded : ∀ unit ∈ units, ∀ file ∈ unit.files, ∃ stored, c.store.unit file = .ok stored) :
    ∃ written, Artifact.outputs config c units = .ok written := by
  have each : ∀ unit ∈ units, ∃ rendered, Artifact.unitOutputs config c unit = .ok rendered := by
    intro unit mem
    obtain ⟨text, module⟩ := Manifest.exists_exportModule (loaded unit mem) c.names c.result c.release
    obtain ⟨flat, flattened⟩ := exists_flattened (loaded unit mem)
    obtain ⟨documents, made⟩ := exists_documents c (loaded unit mem unit.primary (by simp [CompilationUnit.files]))
    exact ⟨_, bind_eq_ok_iff.mpr ⟨text, module, bind_eq_ok_iff.mpr ⟨flat, flattened,
      bind_eq_ok_iff.mpr ⟨documents, made, rfl⟩⟩⟩⟩
  obtain ⟨rendered, all⟩ := exists_mapM_eq_ok each
  exact ⟨_, bind_eq_ok_iff.mpr ⟨rendered, all, rfl⟩⟩

/-- A batch of some of the units has a request. -/
theorem Expanded.exists_request (expanded : Expanded tree config files ready units w) {batch : List CompilationUnit}
    (part : batch ⊆ units) (settings : CompilerSettings) :
    ∃ request names, (Batch.ofUnits w.graph batch).request w.store settings = .ok (request, names) :=
  Batch.exists_request (fun _ mem => expanded.isClosure (part mem))
    (fun _ mem _ inside => expanded.loaded (part mem) inside) settings

/-! ## How a run ends -/

theorem error_of_writeAll {tree : FileTree} {written : List Artifact.OutputFile}
    (failed : (Artifact.writeAll tree written).1 = .error e) : ∃ p fault, e = .file p fault := by
  induction written generalizing tree with
  | nil => cases failed
  | cons file rest ih =>
    unfold Artifact.writeAll at failed
    split at failed
    · exact ih failed
    · next e' same =>
      cases failed
      unfold Artifact.writeFile at same
      split at same
      · cases same
      · next fault _ =>
        cases same
        exact ⟨file.path, fault, rfl⟩

/-- Working out what is to be written fails only because of the compiler. -/
theorem Expanded.error_of_toWrite (expanded : Expanded tree config files ready plan.units plan.workspace)
    (failed : toWrite config toolchain plan = .error e) : LateFailure tree config toolchain files e := by
  have part := (select_sublist plan true).subset
  obtain ⟨request, names, requested⟩ := expanded.exists_request part config.settings
  unfold toWrite at failed
  split at failed
  · cases failed
  change (do
    let found ← (Batch.ofUnits plan.workspace.graph (plan.select true)).request plan.workspace.store config.settings
    let result ← toolchain.compile config.timeout found.1
    rendered config toolchain plan found.1 found.2 result) = .error e at failed
  rw [requested] at failed
  dsimp only [bind, Except.bind] at failed
  cases compiled : toolchain.compile config.timeout request with
  | error e' =>
    rw [compiled] at failed
    cases failed
    unfold Toolchain.compile at compiled
    dsimp only at compiled
    split at compiled
    · next limit limited =>
      split at compiled
      · next late =>
        cases compiled
        exact .timeout request limit limited late
      · exact .toolchain request e compiled
    · exact .toolchain request e compiled
  | ok result =>
    rw [compiled] at failed
    dsimp only at failed
    unfold rendered at failed
    split at failed
    · next errors =>
      cases failed
      exact .diagnostics request result compiled errors
    · rw [plan.batch_units] at failed
      obtain ⟨written, outputs⟩ : ∃ written,
          Artifact.outputs config ⟨plan.workspace.store, names, request, result, toolchain.name, toolchain.release⟩
            (plan.select true) = .ok written :=
        exists_outputs _ fun unit mem file inside => expanded.loaded (part mem) inside
      rw [outputs] at failed
      cases failed

/-- The units of a run get a plan. -/
theorem Expanded.exists_plan (expanded : Expanded tree config files ready units w) (release : String) :
    ∃ stale, prepare tree config release files = .ok (ready, ⟨w, units, stale⟩) := by
  obtain ⟨made, chosen, store, loaded, all⟩ := expanded_iff.mp expanded
  have each : ∀ unit ∈ units, ∃ stale, isStale ready config release w.store unit = .ok stale := by
    intro unit mem
    obtain ⟨hashes, listed⟩ := exists_hashes fun file inside => expanded.loaded mem inside
    exact ⟨_, isStale_eq_ok_iff.mpr ⟨hashes, listed, rfl⟩⟩
  obtain ⟨stale, decided⟩ := exists_mapM_eq_ok each
  exact ⟨stale, prepare_eq_ok_iff.mpr ⟨made, plan_eq_ok_iff.mpr ⟨chosen, store, loaded, all, decided⟩⟩⟩

theorem Expanded.error_of_compileFiles (expanded : Expanded tree config files ready units w)
    (failed : (compileFiles tree config toolchain files).result = .error e) :
    LateFailure tree config toolchain files e := by
  obtain ⟨stale, prepared⟩ := expanded.exists_plan toolchain.release
  rw [compileFiles_of_prepare prepared] at failed
  obtain ⟨e', _, failed', same⟩ | ⟨_, _, same⟩ | ⟨written, _, _, worked, same⟩ :=
    finish_cases ready config toolchain ⟨w, units, stale⟩
  · rw [same] at failed
    cases failed
    exact expanded.error_of_toWrite failed'
  · rw [same] at failed
    cases failed
  · rw [same] at failed
    cases all : (Artifact.writeAll ready written).1 with
    | ok done => simp [all, Except.map] at failed
    | error fault =>
      obtain ⟨p, fault, rfl⟩ := error_of_writeAll all
      simp only [all, Except.map, Except.error.injEq] at failed
      rw [← failed]
      exact .write p fault ⟨ready, _, written, prepared, worked, all⟩

/-- Once all selected files of a run are expanded, no source is missing any more: the units have hashes, modules,
flattened sources and documents, every batch of some of them has a request, and the run ends well or because of the
compiler or a write. -/
theorem sources_never_missing (expanded : Expanded tree config files ready units w) :
    (∀ unit ∈ units, (∃ hashes, w.store.hashes unit.files = .ok hashes) ∧
      (∀ names result release, ∃ text, Artifact.exportModule w.store names result unit release = .ok text) ∧
      (∃ text, Artifact.flattened w.store unit = .ok text) ∧
      ∀ names request result compiler release, ∃ documents,
        (Artifact.Compilation.mk w.store names request result compiler release).documents unit.primary =
          .ok documents) ∧
    (∀ batch, Built w.graph batch → batch.units ⊆ units → ∀ settings, ∃ request names,
      batch.request w.store settings = .ok (request, names)) ∧
    ∀ toolchain e, (compileFiles tree config toolchain files).result = .error e →
      LateFailure tree config toolchain files e := by
  refine ⟨fun unit mem => ?_, fun batch built part settings => ?_, fun toolchain e => expanded.error_of_compileFiles⟩
  · have loaded : ∀ file ∈ unit.files, ∃ stored, w.store.unit file = .ok stored :=
      fun file inside => expanded.loaded mem inside
    refine ⟨exists_hashes loaded, Manifest.exists_exportModule loaded, exists_flattened loaded, ?_⟩
    intro names request result compiler release
    exact exists_documents _ (loaded unit.primary (by simp [CompilationUnit.files]))
  · rw [built.eq_ofUnits]
    exact expanded.exists_request part settings

end

namespace Sample

/-- A project whose contract imports another file. -/
def importing : FileTree :=
  ⟨[(["p"], .directory), (["p", "contracts"], .directory),
    (["p", "contracts", "A.sol"], .file (.text "import \"./B.sol\";\ncontract A {}\n")),
    (["p", "contracts", "B.sol"], .file (.text "contract B {}\n"))], [], by decide⟩

def importer : CompilationUnit := ⟨.ofText "/p/contracts/A.sol", [.ofText "/p/contracts/B.sol"]⟩

theorem expanded_importing : ∃ ready w, Expanded importing configuration files ready [importer] w := by
  have units : (expandSelected importing configuration files).toOption.map (·.2.1) = some [importer] := by
    decide +kernel
  obtain ⟨⟨ready, _, w⟩, found, rfl⟩ := Option.map_eq_some_iff.mp units
  exact ⟨ready, w, toOption_eq_some_iff.mp found⟩

end Sample

/-- With a compiler that always finds a contract, a build fails only if a write does. -/
theorem sources_never_missing_importing :
    ∃ ready w, Expanded Sample.importing Sample.configuration Sample.files ready [Sample.importer] w ∧
      (∃ text, Artifact.flattened w.store Sample.importer = .ok text) ∧
      ∀ e, (compileFiles Sample.importing Sample.configuration Sample.solc Sample.files).result = .error e →
        FailsToWrite Sample.importing Sample.configuration Sample.solc Sample.files e := by
  obtain ⟨ready, w, expanded⟩ := Sample.expanded_importing
  obtain ⟨lookups, _, ends⟩ := sources_never_missing expanded
  refine ⟨ready, w, expanded, (lookups Sample.importer (by simp)).2.2.1, fun e failed => ?_⟩
  cases ends Sample.solc e failed with
  | timeout request limit limited => cases limited
  | toolchain request e failed => cases failed
  | diagnostics request result compiled errors =>
    cases compiled
    cases errors
  | write p fault fails => exact fails

end SolidityBuild.Build
