import SolidityBuild.Proofs.ImportClosures
import SolidityBuild.Proofs.ManifestRoundTrip
import SolidityBuild.Proofs.OutputNames
import SolidityBuild.Proofs.Staleness
import SolidityBuild.Proofs.Writing

/-!
# What a run leaves behind

A run prepares a plan, works out the files to be written, and writes them (`compileFiles_eq_ok`). It skips
the units that are valid (`primary_mem_skipped_iff`). The module of a unit tells afterwards what it told
before, or the hashes and the release of the run if it was written (`read?_of_written`,
`read?_of_unwritten`), whichever of the other files were written too.
-/

namespace SolidityBuild

/-- All contracts that a compiler ever reports are named by identifiers. -/
def Toolchain.NamesIdentifiers (toolchain : Toolchain) : Prop :=
  ∀ request result, (toolchain.run request).result = .ok result → result.NamesIdentifiers

namespace Build

open Artifact (Wrote WellNamed OutputFile modulePath moduleName)

/-! ## Steps of a run -/

/-- The tree with the output directories in place, and the plan that is made there. -/
def prepare (tree : FileTree) (config : Configuration) (release : String) (files : List Path) :
    Result (FileTree × Plan) :=
  match Artifact.ensureDirectories config.createDirectories (Artifact.directories config) tree with
  | (.error e, _) => .error e
  | (.ok (), ready) => (plan ready config release files).map fun plan => (ready, plan)

/-- The files that are written for a plan; there are none if no unit is stale. -/
def toWrite (config : Configuration) (toolchain : Toolchain) (plan : Plan) : Result (List OutputFile) :=
  if plan.batch.units.isEmpty then .ok []
  else do
    let (request, names) ← plan.batch.request plan.workspace.store config.settings
    let result ← toolchain.compile config.timeout request
    rendered config toolchain plan request names result

section

variable {tree ready after : FileTree} {config : Configuration} {toolchain : Toolchain} {files : List Path}
  {plan : Plan} {written done : List OutputFile} {unit : CompilationUnit}

theorem prepare_eq_ok_iff {release : String} :
    prepare tree config release files = .ok (ready, plan) ↔
      Artifact.ensureDirectories config.createDirectories (Artifact.directories config) tree = (.ok (), ready) ∧
        Build.plan ready config release files = .ok plan := by
  unfold prepare
  split
  · next same => simp [same]
  · next found same =>
    rw [map_eq_ok_iff, same]
    constructor
    · rintro ⟨plan, planned, same⟩
      cases same
      exact ⟨rfl, planned⟩
    · rintro ⟨same, planned⟩
      cases same
      exact ⟨plan, planned, rfl⟩

/-- What is to be written depends on the sources and the stale units only. -/
theorem toWrite_congr {other : Plan} (workspace : plan.workspace = other.workspace)
    (selects : plan.select true = other.select true) : toWrite config toolchain plan = toWrite config toolchain other := by
  have batch : plan.batch = other.batch := by rw [Plan.batch, Plan.batch, workspace, selects]
  unfold toWrite rendered
  rw [batch, workspace]

/-- Working out what is to be written fails, or there is nothing to do, or all that was worked out gets written. -/
theorem finish_cases (ready : FileTree) (config : Configuration) (toolchain : Toolchain) (plan : Plan) :
    (∃ e invocations, toWrite config toolchain plan = .error e ∧
        finish ready config toolchain plan = ⟨.error e, ready, invocations⟩) ∨
      (plan.select true = [] ∧ toWrite config toolchain plan = .ok [] ∧
        finish ready config toolchain plan = ⟨.ok ⟨[], plan.skipped, [], 0⟩, ready, 0⟩) ∨
      ∃ written warnings, plan.select true ≠ [] ∧ toWrite config toolchain plan = .ok written ∧
        finish ready config toolchain plan =
          ⟨(Artifact.writeAll ready written).1.map fun _ =>
              ⟨(plan.select true).map (·.primary), plan.skipped, warnings, 1⟩,
            (Artifact.writeAll ready written).2, 1⟩ := by
  unfold finish toWrite
  rw [plan.batch_units]
  by_cases idle : (plan.select true).isEmpty = true
  · rw [if_pos idle, if_pos idle]
    exact .inr (.inl ⟨List.isEmpty_iff.mp idle, rfl, rfl⟩)
  rw [if_neg idle, if_neg idle]
  cases plan.batch.request plan.workspace.store config.settings with
  | error e => exact .inl ⟨e, 0, rfl, rfl⟩
  | ok asked =>
  obtain ⟨request, names⟩ := asked
  dsimp only [bind, Except.bind]
  cases toolchain.compile config.timeout request with
  | error e => exact .inl ⟨e, 1, rfl, rfl⟩
  | ok result =>
  dsimp only
  cases rendered config toolchain plan request names result with
  | error e => exact .inl ⟨e, 1, rfl, rfl⟩
  | ok written =>
    exact .inr (.inr ⟨written, result.warnings, fun same => idle (List.isEmpty_iff.mpr same), rfl, rfl⟩)

/-- A run that gets as far as writing leaves the tree that the writes leave. -/
theorem tree_finish (worked : toWrite config toolchain plan = .ok written) :
    (finish ready config toolchain plan).tree = (Artifact.writeAll ready written).2 := by
  obtain ⟨e, _, failed, _⟩ | ⟨_, reads, same⟩ | ⟨_, _, _, worked', same⟩ := finish_cases ready config toolchain plan
  · rw [worked] at failed
    cases failed
  · rw [worked] at reads
    cases reads
    rw [same]
    rfl
  · rw [worked] at worked'
    cases worked'
    rw [same]

/-- A run that ends well has written everything. -/
theorem finish_eq_ok {report : BuildReport} (ran : (finish ready config toolchain plan).result = .ok report) :
    ∃ written, toWrite config toolchain plan = .ok written ∧ (Artifact.writeAll ready written).1 = .ok () ∧
      report.compiled = (plan.select true).map (·.primary) ∧ report.skipped = plan.skipped ∧
      report.invocations = if (plan.select true).isEmpty then 0 else 1 := by
  obtain ⟨e, _, _, same⟩ | ⟨idle, worked, same⟩ | ⟨written, _, stale, worked, same⟩ :=
    finish_cases ready config toolchain plan
  · rw [same] at ran
    cases ran
  · rw [same] at ran
    cases ran
    exact ⟨[], worked, rfl, by simp [idle], rfl, by simp [idle]⟩
  · rw [same] at ran
    obtain ⟨_, all, whole⟩ := map_eq_ok_iff.mp ran
    cases whole
    exact ⟨written, worked, all, rfl, rfl, by simp [stale]⟩

theorem compileFiles_of_prepare (prepared : prepare tree config toolchain.release files = .ok (ready, plan)) :
    compileFiles tree config toolchain files = finish ready config toolchain plan := by
  obtain ⟨made, planned⟩ := prepare_eq_ok_iff.mp prepared
  unfold compileFiles
  rw [made]
  dsimp only
  rw [planned]

/-- A run fails to prepare and leaves the output directories that it made, or it finishes its plan. -/
theorem compileFiles_cases (tree : FileTree) (config : Configuration) (toolchain : Toolchain) (files : List Path) :
    (∃ e, compileFiles tree config toolchain files =
        ⟨.error e, (Artifact.ensureDirectories config.createDirectories (Artifact.directories config) tree).2, 0⟩) ∨
      ∃ ready plan, prepare tree config toolchain.release files = .ok (ready, plan) ∧
        compileFiles tree config toolchain files = finish ready config toolchain plan := by
  cases made : Artifact.ensureDirectories config.createDirectories (Artifact.directories config) tree with
  | mk result ready =>
  cases result with
  | error e =>
    refine .inl ⟨e, ?_⟩
    unfold compileFiles
    rw [made]
  | ok done =>
  cases planned : Build.plan ready config toolchain.release files with
  | error e =>
    refine .inl ⟨e, ?_⟩
    unfold compileFiles
    rw [made]
    dsimp only
    rw [planned]
  | ok plan =>
    have prepared := prepare_eq_ok_iff.mpr ⟨made, planned⟩
    exact .inr ⟨ready, plan, prepared, compileFiles_of_prepare prepared⟩

/-- A run ends well if everything up to the writing and all the writes do. -/
theorem compileFiles_eq_ok {report : BuildReport}
    (ran : (compileFiles tree config toolchain files).result = .ok report) :
    ∃ ready plan written, prepare tree config toolchain.release files = .ok (ready, plan) ∧
      toWrite config toolchain plan = .ok written ∧ Wrote ready written (compileFiles tree config toolchain files).tree ∧
      report.compiled = (plan.select true).map (·.primary) ∧ report.skipped = plan.skipped ∧
      report.invocations = if (plan.select true).isEmpty then 0 else 1 := by
  obtain ⟨e, failed⟩ | ⟨ready, plan, prepared, same⟩ := compileFiles_cases tree config toolchain files
  · rw [failed] at ran
    cases ran
  rw [same] at ran ⊢
  obtain ⟨written, worked, all, compiled, skipped, invocations⟩ := finish_eq_ok ran
  obtain ⟨done, _, wrote, whole⟩ := Artifact.wrote_writeAll ready written
  refine ⟨ready, plan, written, prepared, worked, ?_, compiled, skipped, invocations⟩
  rw [tree_finish worked]
  rw [whole all] at wrote
  exact wrote

/-- What a run that ends well does, by the plan that it makes and the files that it has to write. -/
theorem done_of_run {report : BuildReport} (ran : (compileFiles tree config toolchain files).result = .ok report)
    (prepared : prepare tree config toolchain.release files = .ok (ready, plan))
    (worked : toWrite config toolchain plan = .ok written) :
    Wrote ready written (compileFiles tree config toolchain files).tree ∧
      report.compiled = (plan.select true).map (·.primary) ∧ report.skipped = plan.skipped := by
  obtain ⟨_, _, _, prepared', worked', wrote, compiled, skipped, _⟩ := compileFiles_eq_ok ran
  rw [prepared] at prepared'
  cases prepared'
  rw [worked] at worked'
  cases worked'
  exact ⟨wrote, compiled, skipped⟩

/-- A run that ends well has made a plan. -/
theorem isSome_prepare (runs : (compileFiles tree config toolchain files).result.toOption.isSome = true) :
    (prepare tree config toolchain.release files).toOption.isSome = true := by
  obtain ⟨_, _, _, prepared, _⟩ := compileFiles_eq_ok (eq_ok_of_isSome runs)
  rw [prepared]
  rfl

theorem isSome_toWrite (runs : (compileFiles tree config toolchain files).result.toOption.isSome = true)
    (prepared : prepare tree config toolchain.release files = .ok (ready, plan)) :
    (toWrite config toolchain plan).toOption.isSome = true := by
  obtain ⟨_, _, _, prepared', worked, _⟩ := compileFiles_eq_ok (eq_ok_of_isSome runs)
  rw [prepared] at prepared'
  cases prepared'
  rw [worked]
  rfl

/-- A run that can write everything ends well. -/
theorem exists_report (prepared : prepare tree config toolchain.release files = .ok (ready, plan))
    (worked : toWrite config toolchain plan = .ok written) (all : (Artifact.writeAll ready written).1 = .ok ()) :
    ∃ report, (compileFiles tree config toolchain files).result = .ok report := by
  rw [compileFiles_of_prepare prepared]
  obtain ⟨e, _, failed, _⟩ | ⟨_, _, same⟩ | ⟨_, _, _, worked', same⟩ := finish_cases ready config toolchain plan
  · rw [worked] at failed
    cases failed
  · exact ⟨_, by rw [same]⟩
  · rw [worked] at worked'
    cases worked'
    exact ⟨_, by rw [same, all]; rfl⟩

/-- A run that gets as far as writing has written some of its files, whether it ends well or not. -/
theorem wrote_compileFiles (prepared : prepare tree config toolchain.release files = .ok (ready, plan))
    (worked : toWrite config toolchain plan = .ok written) :
    ∃ done, done.Sublist written ∧ Wrote ready done (compileFiles tree config toolchain files).tree := by
  obtain ⟨done, part, wrote, _⟩ := Artifact.wrote_writeAll ready written
  refine ⟨done, part, ?_⟩
  rw [compileFiles_of_prepare prepared, tree_finish worked]
  exact wrote

/-- Building what the patterns select is building the selected files, be there any or not. -/
theorem compile_eq {chosen : List Path}
    (made : Artifact.ensureDirectories config.createDirectories (Artifact.directories config) tree = (.ok (), ready))
    (found : Discovery.discover ready config.baseDirectory config.inputs = .ok chosen) :
    compile tree config toolchain = compileFiles ready config toolchain chosen := by
  have again := Artifact.ensureDirectories_eq (Artifact.inPlace_ensureDirectories made)
  unfold compile
  rw [made]
  dsimp only
  rw [found]
  cases chosen with
  | cons first rest => rfl
  | nil =>
    unfold compileFiles
    rw [again]
    rfl

/-- A build fails to select files and leaves the output directories that it made, or it builds those selected. -/
theorem compile_cases (tree : FileTree) (config : Configuration) (toolchain : Toolchain) :
    (∃ e, compile tree config toolchain =
        ⟨.error e, (Artifact.ensureDirectories config.createDirectories (Artifact.directories config) tree).2, 0⟩) ∨
      ∃ ready chosen,
        Artifact.ensureDirectories config.createDirectories (Artifact.directories config) tree = (.ok (), ready) ∧
          Discovery.discover ready config.baseDirectory config.inputs = .ok chosen ∧
          compile tree config toolchain = compileFiles ready config toolchain chosen := by
  cases made : Artifact.ensureDirectories config.createDirectories (Artifact.directories config) tree with
  | mk result ready =>
  cases result with
  | error e =>
    refine .inl ⟨e, ?_⟩
    unfold compile
    rw [made]
  | ok done =>
  cases found : Discovery.discover ready config.baseDirectory config.inputs with
  | error e =>
    refine .inl ⟨e, ?_⟩
    unfold compile
    rw [made]
    dsimp only
    rw [found]
  | ok chosen => exact .inr ⟨ready, chosen, rfl, found, compile_eq made found⟩

/-- What a run writes are the outputs of its stale units, as they follow from an answer of the compiler. -/
theorem outputs_of_toWrite (worked : toWrite config toolchain plan = .ok written)
    (stale : plan.select true ≠ []) :
    ∃ request names result, toolchain.compile config.timeout request = .ok result ∧
      Artifact.outputs config
        ⟨plan.workspace.store, names, request, result, toolchain.name, toolchain.release⟩ (plan.select true) =
          .ok written := by
  unfold toWrite at worked
  rw [plan.batch_units, if_neg (by simpa using stale)] at worked
  obtain ⟨⟨request, names⟩, _, answered⟩ := bind_eq_ok_iff.mp worked
  obtain ⟨result, compiled, outputs⟩ := bind_eq_ok_iff.mp answered
  unfold rendered at outputs
  split at outputs
  · cases outputs
  · rw [plan.batch_units] at outputs
    exact ⟨request, names, result, compiled, outputs⟩

theorem compile_namesIdentifiers (named : toolchain.NamesIdentifiers) {limit : Option Nat} {request : CompilerRequest}
    {result : CompilerResult} (compiled : toolchain.compile limit request = .ok result) : result.NamesIdentifiers := by
  unfold Toolchain.compile at compiled
  dsimp only at compiled
  split at compiled
  · split at compiled
    · cases compiled
    · exact named request result compiled
  · exact named request result compiled

/-! ## Selected files -/

/-- The canonical paths of the files that are given to a build, each once. -/
def primaries (tree : FileTree) (config : Configuration) (files : List Path) : Result (List Path) :=
  ((Workspace.new config.baseDirectory config.constants).store.loadPrimaries tree files).map (·.1)

theorem primary_expandAll {w after : Workspace} {chosen : List Path} {units : List CompilationUnit}
    (expanded : expandAll tree w chosen = (.ok units, after)) :
    units.map (·.primary) = chosen := by
  induction chosen generalizing w units with
  | nil =>
    cases expanded
    rfl
  | cons primary rest ih =>
    unfold expandAll at expanded
    split at expanded
    · cases expanded
    · split at expanded
      · cases expanded
      · next found =>
        cases expanded
        rw [List.map_cons, ih found]

theorem primaries_eq {release : String} (planned : Build.plan tree config release files = .ok plan) :
    primaries tree config files = .ok (plan.units.map (·.primary)) := by
  obtain ⟨chosen, store, loaded, expanded, _⟩ := plan_eq_ok_iff.mp planned
  have same : primaries tree config files = .ok chosen := map_eq_ok_iff.mpr ⟨_, loaded, rfl⟩
  rw [same, primary_expandAll expanded]

/-- No file is selected twice. -/
theorem nodup_primaries {release : String} (planned : Build.plan tree config release files = .ok plan) :
    (plan.units.map (·.primary)).Nodup := by
  have selected := primaries_eq planned
  unfold primaries at selected
  obtain ⟨⟨chosen, store⟩, loaded, same⟩ := map_eq_ok_iff.mp selected
  dsimp only at same
  rw [← same]
  obtain ⟨read, _, loaded⟩ := bind_eq_ok_iff.mp loaded
  cases loaded
  have distinct := Workspace.pairwise_addNew (read.map (·.1))
  rw [Workspace.addNew, List.foldl_map] at distinct
  refine distinct.imp fun {p q} other equal => ?_
  rw [equal, Path.same_refl] at other
  cases other

theorem skipped_eq {release : String} (planned : Build.plan tree config release files = .ok plan) :
    plan.skipped = (plan.units.filter (isValid tree config release plan.workspace.store)).map (·.primary) := by
  rw [Plan.skipped, select_eq planned]
  simp

/-- A unit is skipped exactly if it is valid. -/
theorem primary_mem_skipped_iff {release : String} (planned : Build.plan tree config release files = .ok plan)
    (mem : unit ∈ plan.units) :
    unit.primary ∈ plan.skipped ↔ isValid tree config release plan.workspace.store unit = true := by
  rw [skipped_eq planned, List.mem_map]
  constructor
  · rintro ⟨other, kept, same⟩
    obtain ⟨mem', valid⟩ := List.mem_filter.mp kept
    rw [← List.inj_on_of_nodup_map (nodup_primaries planned) mem' mem same]
    exact valid
  · exact fun valid => ⟨unit, List.mem_filter.mpr ⟨mem, valid⟩, rfl⟩

theorem select_eq_nil_iff {release : String} (planned : Build.plan tree config release files = .ok plan) :
    plan.select true = [] ↔ ∀ unit ∈ plan.units, unit.primary ∈ plan.skipped := by
  rw [select_eq planned, List.filter_eq_nil_iff]
  constructor
  · intro skips unit mem
    rw [primary_mem_skipped_iff planned mem]
    simpa using skips unit mem
  · intro all unit mem
    simp [(primary_mem_skipped_iff planned mem).mp (all unit mem)]

/-! ## Modules after a run -/

/-- The modules of all units and everything that is written are no symbolic links. -/
structure NoLinks (ready : FileTree) (config : Configuration) (plan : Plan) (written : List OutputFile) : Prop where
  modules : ∀ unit ∈ plan.units, ready.isLink (modulePath config unit.primary) = false
  written : ∀ file ∈ written, ready.isLink file.path = false

theorem noLinks_iff {ready : FileTree} {config : Configuration} {plan : Plan} {written : List OutputFile} :
    NoLinks ready config plan written ↔
      (∀ unit ∈ plan.units, ready.isLink (modulePath config unit.primary) = false) ∧
        ∀ file ∈ written, ready.isLink file.path = false :=
  ⟨fun noLinks => ⟨noLinks.modules, noLinks.written⟩, fun both => ⟨both.1, both.2⟩⟩

instance (ready : FileTree) (config : Configuration) (plan : Plan) (written : List OutputFile) :
    Decidable (NoLinks ready config plan written) := decidable_of_iff _ noLinks_iff.symm

theorem select_sublist (plan : Plan) (stale : Bool) : (plan.select stale).Sublist plan.units := by
  unfold Plan.select
  generalize plan.units = units
  generalize plan.stale = flags
  induction units generalizing flags with
  | nil => simp
  | cons unit rest ih =>
    cases flags with
    | nil => simp
    | cons flag flags =>
      rw [List.zip_cons_cons, List.filterMap_cons]
      dsimp only
      split
      · next skip => exact (ih flags).cons unit
      · next kept same =>
        split at same
        · cases same
          exact (ih flags).cons_cons unit
        · cases same

theorem exists_stale_of_mem (worked : toWrite config toolchain plan = .ok written) {file : OutputFile}
    (mem : file ∈ written) : plan.select true ≠ [] := by
  intro idle
  unfold toWrite at worked
  rw [plan.batch_units, idle] at worked
  cases worked
  cases mem

/-- A file that is written where a path leads has the last name of the path. -/
theorem name_of_location (noLinks : NoLinks ready config plan written) (named : WellNamed plan.units)
    (worked : toWrite config toolchain plan = .ok written) {file : OutputFile} (mem : file ∈ written) {p : Path}
    {name : String} (ends : p.segments.getLast? = some name) (isName : Path.IsName name)
    (notLink : ready.isLink p = false) {location : Location} (leads : ready.location? p = some location)
    (there : ready.location? file.path = some location) : file.path.segments.getLast? = some name := by
  have here := FileTree.getLast?_location ends isName notLink leads
  obtain ⟨request, names, result, _, outputs⟩ := outputs_of_toWrite worked (exists_stale_of_mem worked mem)
  obtain ⟨other, last, isOther⟩ :=
    (named.sublist (select_sublist plan true)).isName (Artifact.module_or_other_of_mem outputs mem)
  rw [FileTree.getLast?_location last isOther (noLinks.written file mem) there] at here
  rw [last, here]

/-- A file that is written where the module of a unit is has the name of the module. -/
theorem moduleName_of_location (noLinks : NoLinks ready config plan written) (named : WellNamed plan.units)
    (worked : toWrite config toolchain plan = .ok written) {file : OutputFile} (mem : file ∈ written)
    (unitMem : unit ∈ plan.units) {location : Location}
    (leads : ready.location? (modulePath config unit.primary) = some location)
    (there : ready.location? file.path = some location) :
    file.path.segments.getLast? = some (moduleName unit.primary) :=
  name_of_location noLinks named worked mem (Artifact.getLast?_modulePath config (named.plain unit unitMem))
    (Artifact.isName_moduleName _) (noLinks.modules unit unitMem) leads there

/-- Whether the module of a unit is among some files. -/
def WritesModule (done : List OutputFile) (unit : CompilationUnit) : Prop :=
  ∃ file ∈ done, file.path.segments.getLast? = some (moduleName unit.primary)

/-- As long as its module is not written, a unit has the manifest that it had before. -/
theorem read?_of_unwritten (noLinks : NoLinks ready config plan written) (named : WellNamed plan.units)
    (worked : toWrite config toolchain plan = .ok written) (part : done ⊆ written) (wrote : Wrote ready done after)
    (mem : unit ∈ plan.units) (unwritten : ¬WritesModule done unit) :
    Manifest.read? after (modulePath config unit.primary) = Manifest.read? ready (modulePath config unit.primary) := by
  have elsewhere : ∀ file ∈ done, ∀ location, ready.location? (modulePath config unit.primary) = some location →
      ready.location? file.path ≠ some location := by
    intro file inDone location leads there
    exact unwritten ⟨file, inDone, moduleName_of_location noLinks named worked (part inDone) mem leads there⟩
  refine Option.ext fun manifest => ?_
  simp only [Manifest.read?_eq_some_iff, wrote.readText_of_elsewhere elsewhere]

/-- Once its module is written, a unit has the manifest of the hashes and the release of the run. -/
theorem read?_of_written (noLinks : NoLinks ready config plan written) (named : WellNamed plan.units)
    (identifiers : toolchain.NamesIdentifiers) (worked : toWrite config toolchain plan = .ok written)
    (part : done ⊆ written) (wrote : Wrote ready done after) (mem : unit ∈ plan.select true)
    (writes : WritesModule done unit) :
    ∃ hashes, plan.workspace.store.hashes unit.files = .ok hashes ∧
      Manifest.read? after (modulePath config unit.primary) = some ⟨hashes, some toolchain.release⟩ := by
  obtain ⟨file, inDone, name⟩ := writes
  have stale : plan.select true ≠ [] := List.ne_nil_of_mem mem
  have unitMem := (select_sublist plan true).subset mem
  obtain ⟨request, names, result, compiled, outputs⟩ := outputs_of_toWrite worked stale
  obtain ⟨text, module, _, only⟩ := Artifact.exists_module outputs (named.sublist (select_sublist plan true)) mem
  have isModule := only file (part inDone) name
  have alone : ∀ other ∈ done, ∀ location, ready.location? file.path = some location →
      ready.location? other.path = some location → other.contents = file.contents := by
    intro other inDone' location leads there
    have path : file.path = modulePath config unit.primary := by rw [isModule]
    rw [path] at leads
    have name' := moduleName_of_location noLinks named worked (part inDone') unitMem leads there
    rw [isModule, only other (part inDone') name']
  have read := wrote.readText_of_mem inDone alone
  rw [isModule] at read
  dsimp only at read
  obtain ⟨hashes, listed, recorded⟩ :=
    Manifest.parse_exportModule (compile_namesIdentifiers identifiers compiled) module
  exact ⟨hashes, listed, Manifest.read?_of_release read recorded⟩

theorem writesModule_of_mem (named : WellNamed plan.units) (worked : toWrite config toolchain plan = .ok written)
    (mem : unit ∈ plan.select true) : WritesModule written unit := by
  obtain ⟨request, names, result, _, outputs⟩ := outputs_of_toWrite worked (List.ne_nil_of_mem mem)
  obtain ⟨text, _, listed, _⟩ := Artifact.exists_module outputs (named.sublist (select_sublist plan true)) mem
  refine ⟨_, listed, ?_⟩
  dsimp only
  exact Artifact.getLast?_modulePath config (named.plain unit ((select_sublist plan true).subset mem))

/-- Only the modules of stale units are written. -/
theorem mem_of_writesModule (named : WellNamed plan.units) (worked : toWrite config toolchain plan = .ok written)
    (mem : unit ∈ plan.units) (writes : WritesModule written unit) : unit ∈ plan.select true := by
  obtain ⟨file, listed, name⟩ := writes
  obtain ⟨request, names, result, _, outputs⟩ := outputs_of_toWrite worked (exists_stale_of_mem worked listed)
  rcases Artifact.module_or_other_of_mem outputs listed with ⟨owner, ownerMem, path⟩ | other
  · have ownerUnit := (select_sublist plan true).subset ownerMem
    rw [path, Artifact.getLast?_modulePath config (named.plain owner ownerUnit)] at name
    rw [named.eq mem ownerUnit (Artifact.moduleName_inj (Option.some.inj name)).symm]
    exact ownerMem
  · exact absurd name (other.ne_module unit.primary)

theorem mem_select_iff (prepared : prepare tree config toolchain.release files = .ok (ready, plan)) (stale : Bool) :
    unit ∈ plan.select stale ↔ unit ∈ plan.units ∧
      isValid ready config toolchain.release plan.workspace.store unit = !stale := by
  rw [select_eq (prepare_eq_ok_iff.mp prepared).2, List.mem_filter, decide_eq_true_eq]

/-- After a run that wrote everything each unit, compiled or not, has the manifest of its hashes and of the
release of the run. -/
theorem read?_after (prepared : prepare tree config toolchain.release files = .ok (ready, plan))
    (noLinks : NoLinks ready config plan written) (named : WellNamed plan.units)
    (identifiers : toolchain.NamesIdentifiers) (worked : toWrite config toolchain plan = .ok written)
    (wrote : Wrote ready written after) (mem : unit ∈ plan.units) :
    ∃ hashes, plan.workspace.store.hashes unit.files = .ok hashes ∧
      Manifest.read? after (modulePath config unit.primary) = some ⟨hashes, some toolchain.release⟩ := by
  by_cases stale : unit ∈ plan.select true
  · exact read?_of_written noLinks named identifiers worked (List.Subset.refl _) wrote stale
      (writesModule_of_mem named worked stale)
  · have valid : isValid ready config toolchain.release plan.workspace.store unit = true := by
      simpa [mem_select_iff prepared, mem] using stale
    have unwritten : ¬WritesModule written unit := fun writes => stale (mem_of_writesModule named worked mem writes)
    rw [read?_of_unwritten noLinks named worked (List.Subset.refl _) wrote mem unwritten]
    exact isValid_iff.mp valid

end

/-! ## A sample -/

namespace Sample

/-- A project with one contract. -/
def project : FileTree :=
  ⟨[(["p"], .directory), (["p", "contracts"], .directory),
    (["p", "contracts", "A.sol"], .file (.text "contract A {}\n"))], [], by decide⟩

def configuration : Configuration := .withBase project (.ofText "/p")

def files : List Path := [.ofText "/p/contracts/A.sol"]

/-- A compiler that finds the contract. -/
def solc : Toolchain where
  name := "solc"
  version := Version.default
  run _ :=
    let contracts := Dict.ofList [("/p/contracts/A.sol", Dict.ofList [("A", ⟨.object []⟩)])]
    ⟨0, .ok ⟨[], contracts, Dict.empty, .object []⟩⟩

theorem namesIdentifiers_solc : solc.NamesIdentifiers := by
  intro request result answered
  cases answered
  exact CompilerResult.namesIdentifiers_of_contracts (by decide)

end Sample

end Build

end SolidityBuild
