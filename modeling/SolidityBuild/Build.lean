import SolidityBuild.Artifact.Output
import SolidityBuild.Compiler.Toolchain

/-!
# Incremental builds

A build loads the selected files, expands their imports, leaves out the units whose outputs are still
valid, sends the others to the compiler in one request and writes the outputs. Everything up to the
writing only reads the tree, the output directories apart.
-/

namespace SolidityBuild

/-- What a build did. -/
structure BuildReport where
  /-- The selected files that were compiled. -/
  compiled : List Path
  /-- The selected files whose outputs were still valid. -/
  skipped : List Path
  warnings : List Diagnostic
  invocations : Nat
deriving DecidableEq

/-- The end of a build: its result, the tree that it leaves, and how often the compiler was asked. -/
structure BuildOutcome where
  result : Result BuildReport
  tree : FileTree
  invocations : Nat

namespace Build

/-- The report of a build that had nothing to do. -/
def emptyReport : BuildReport := ⟨[], [], [], 0⟩

/-! ## Before the compiler -/

/-- Expands selected files one after the other. -/
def expandAll (tree : FileTree) (w : Workspace) : List Path → Result (List CompilationUnit) × Workspace
  | [] => (.ok [], w)
  | primary :: rest =>
    match w.closure tree primary with
    | (.error e, w) => (.error e, w)
    | (.ok closure, w) =>
      match expandAll tree w rest with
      | (.error e, w) => (.error e, w)
      | (.ok units, w) => (.ok (⟨primary, closure⟩ :: units), w)

/-- Whether the outputs of a unit are not valid any more. -/
def isStale (tree : FileTree) (config : Configuration) (release : String) (store : SourceStore)
    (unit : CompilationUnit) : Result Bool := do
  let current ← store.hashes unit.files
  return Manifest.isStale (Manifest.read? tree (Artifact.modulePath config unit.primary)) current release

/-- A build up to the point where the compiler is asked. -/
structure Plan where
  workspace : Workspace
  units : List CompilationUnit
  /-- Whether each of the units is stale. -/
  stale : List Bool

namespace Plan

/-- The units of one kind. -/
def select (plan : Plan) (stale : Bool) : List CompilationUnit :=
  (plan.units.zip plan.stale).filterMap fun (unit, isStale) => if isStale = stale then some unit else none

/-- The selected files that are left out. -/
def skipped (plan : Plan) : List Path := (plan.select false).map (·.primary)

/-- The batch of the units that are stale. -/
def batch (plan : Plan) : Batch := Batch.ofUnits plan.workspace.graph (plan.select true)

end Plan

/-- Loads and expands the selected files, and finds out which units are stale. -/
def plan (tree : FileTree) (config : Configuration) (release : String) (files : List Path) : Result Plan := do
  let start := Workspace.new config.baseDirectory config.constants
  let (primaries, store) ← start.store.loadPrimaries tree files
  let (units, workspace) := expandAll tree { start with store } primaries
  let units ← units
  let stale ← units.mapM (isStale tree config release workspace.store)
  return ⟨workspace, units, stale⟩

/-! ## After the compiler -/

/-- The diagnostics that a failed build shows. -/
def shownDiagnostics (config : Configuration) (result : CompilerResult) : List Diagnostic :=
  result.diagnostics.filter fun d => d.isError || !config.quiet

/-- The files to be written for an answer of the compiler. -/
def rendered (config : Configuration) (toolchain : Toolchain) (plan : Plan)
    (request : CompilerRequest) (names : SourceNames) (result : CompilerResult) :
    Result (List Artifact.OutputFile) :=
  if result.hasErrors then .error (.diagnostics (shownDiagnostics config result))
  else
    Artifact.outputs config
      ⟨plan.workspace.store, names, request, result, toolchain.name, toolchain.release⟩ plan.batch.units

/-- Asks the compiler about the stale units of a plan and writes the outputs. -/
def finish (tree : FileTree) (config : Configuration) (toolchain : Toolchain) (plan : Plan) : BuildOutcome :=
  if plan.batch.units.isEmpty then ⟨.ok ⟨[], plan.skipped, [], 0⟩, tree, 0⟩
  else
    match plan.batch.request plan.workspace.store config.settings with
    | .error e => ⟨.error e, tree, 0⟩
    | .ok (request, names) =>
      let compiled := do
        let result ← toolchain.compile config.timeout request
        return (result, ← rendered config toolchain plan request names result)
      match compiled with
      | .error e => ⟨.error e, tree, 1⟩
      | .ok (result, files) =>
        let (written, tree) := Artifact.writeAll tree files
        let report : BuildReport :=
          ⟨plan.batch.units.map (·.primary), plan.skipped, result.warnings, 1⟩
        ⟨written.map fun _ => report, tree, 1⟩

/-! ## Builds -/

/-- Builds the given files. -/
def compileFiles (tree : FileTree) (config : Configuration) (toolchain : Toolchain) (files : List Path) :
    BuildOutcome :=
  match Artifact.ensureDirectories config.createDirectories (Artifact.directories config) tree with
  | (.error e, tree) => ⟨.error e, tree, 0⟩
  | (.ok (), tree) =>
    match plan tree config toolchain.release files with
    | .error e => ⟨.error e, tree, 0⟩
    | .ok plan => finish tree config toolchain plan

/-- Builds the files that the patterns of the configuration select. -/
def compile (tree : FileTree) (config : Configuration) (toolchain : Toolchain) : BuildOutcome :=
  match Artifact.ensureDirectories config.createDirectories (Artifact.directories config) tree with
  | (.error e, tree) => ⟨.error e, tree, 0⟩
  | (.ok (), tree) =>
    match Discovery.discover tree config.baseDirectory config.inputs with
    | .error e => ⟨.error e, tree, 0⟩
    | .ok [] => ⟨.ok emptyReport, tree, 0⟩
    | .ok files => compileFiles tree config toolchain files

end Build

end SolidityBuild
