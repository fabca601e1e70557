import SolidityBuild.Proofs.BuildRuns

/-!
# After a failed write

The module of a unit is its manifest, and it is written like any other output. So what the next run takes
for valid after a run that could not write all of its files is decided by the modules alone
(`skipped_iff_recorded`): a unit whose module got written (`recorded_iff_writesModule`) is skipped, whether its
other outputs were written or not. The next run makes up for everything that is missing just if there is no such
unit.
-/

namespace SolidityBuild.Build

open Artifact (Wrote WellNamed OutputFile modulePath lastAt)

/-- What a run has rendered for one of its stale units. -/
def renderedFor (config : Configuration) (toolchain : Toolchain) (plan : Plan) (unit : CompilationUnit) :
    Result (List OutputFile) := do
  let (request, names) ← plan.batch.request plan.workspace.store config.settings
  let result ← toolchain.compile config.timeout request
  Artifact.unitOutputs config
    ⟨plan.workspace.store, names, request, result, toolchain.name, toolchain.release⟩ unit

/-- An output of a unit is not on disk as it was rendered. -/
def Differs (disk : FileTree) (config : Configuration) (toolchain : Toolchain) (plan : Plan)
    (unit : CompilationUnit) : Prop :=
  ∃ files, renderedFor config toolchain plan unit = .ok files ∧
    ∃ file ∈ files, disk.readText file.path ≠ .ok file.contents

/-- The file that was written last where the module of a unit is, and it is a manifest of the unit. -/
def Recorded (ready : FileTree) (config : Configuration) (release : String) (plan : Plan) (done : List OutputFile)
    (unit : CompilationUnit) : Prop :=
  ∃ location file hashes, ready.location? (modulePath config unit.primary) = some location ∧
    lastAt ready done location = some file ∧ plan.workspace.store.hashes unit.files = .ok hashes ∧
    Manifest.parse file.contents = ⟨hashes, some release⟩

section

variable {tree ready after later start : FileTree} {config : Configuration} {toolchain : Toolchain}
  {files : List Path} {plan next : Plan} {done : List OutputFile} {unit : CompilationUnit}

theorem read?_eq_of_readText_eq {disk other : FileTree} {p : Path} (same : disk.readText p = other.readText p) :
    Manifest.read? disk p = Manifest.read? other p := by
  unfold Manifest.read? Manifest.load
  rw [same]

/-- After some writes the module of a stale unit is a manifest of the unit just if one was written there. -/
theorem recorded_iff (prepared : prepare tree config toolchain.release files = .ok (ready, plan))
    (wrote : Wrote ready done after) (stale : unit ∈ plan.select true) :
    Recorded ready config toolchain.release plan done unit ↔
      ∃ hashes, plan.workspace.store.hashes unit.files = .ok hashes ∧
        Manifest.read? after (modulePath config unit.primary) = some ⟨hashes, some toolchain.release⟩ := by
  constructor
  · rintro ⟨location, file, hashes, leads, last, listed, recorded⟩
    exact ⟨hashes, listed, Manifest.read?_of_release (wrote.readText_of_lastAt leads last) recorded⟩
  · rintro ⟨hashes, listed, recorded⟩
    obtain ⟨notEmpty, text, read, parsed⟩ := Manifest.read?_eq_some_iff.mp recorded
    obtain ⟨location, leads, entry⟩ := FileTree.readText_eq_ok_iff.mp read
    rw [wrote.samePassages.location?_eq] at leads
    rw [wrote.node?_eq] at entry
    cases last : lastAt ready done location with
    | some file =>
      rw [last] at entry
      cases entry
      exact ⟨location, file, hashes, leads, last, listed, parsed⟩
    | none =>
      -- The module is the one that the failed run has found stale.
      rw [last] at entry
      have readBefore := FileTree.readText_eq_ok_iff.mpr ⟨location, leads, entry⟩
      have before := isValid_iff.mpr ⟨hashes, listed, Manifest.read?_of_release readBefore parsed⟩
      have invalid := ((mem_select_iff prepared true).mp stale).2
      rw [before] at invalid
      cases invalid

/-- After some of the files of a run were written, the next run with the same sources and release skips a
unit that was stale just if a manifest of the unit was written where its module is. -/
theorem skipped_iff_recorded (prepared : prepare tree config toolchain.release files = .ok (ready, plan))
    (wrote : Wrote ready done after)
    (prepared' : prepare later config toolchain.release files = .ok (start, next))
    (units : next.units = plan.units)
    (hashes : ∀ unit ∈ plan.units, next.workspace.store.hashes unit.files = plan.workspace.store.hashes unit.files)
    (kept : ∀ unit ∈ plan.units,
      start.readText (modulePath config unit.primary) = after.readText (modulePath config unit.primary))
    (stale : unit ∈ plan.select true) :
    unit.primary ∈ next.skipped ↔ Recorded ready config toolchain.release plan done unit := by
  have mem : unit ∈ plan.units := (select_sublist plan true).subset stale
  rw [recorded_iff prepared wrote stale, ← read?_eq_of_readText_eq (kept unit mem), ← hashes unit mem,
    ← isValid_iff]
  exact primary_mem_skipped_iff (prepare_eq_ok_iff.mp prepared').2 (units ▸ mem)

/-- If outputs are no links and stems differ, only the module of a unit can be taken for its manifest. -/
theorem recorded_iff_writesModule {written : List OutputFile}
    (prepared : prepare tree config toolchain.release files = .ok (ready, plan))
    (noLinks : NoLinks ready config plan written) (named : WellNamed plan.units)
    (identifiers : toolchain.NamesIdentifiers) (worked : toWrite config toolchain plan = .ok written)
    (part : done ⊆ written) (wrote : Wrote ready done after) (stale : unit ∈ plan.select true) :
    Recorded ready config toolchain.release plan done unit ↔ WritesModule done unit := by
  constructor
  · rintro ⟨location, file, _, leads, last, _⟩
    have there : ready.location? file.path = some location := by simpa using List.find?_some last
    have listed : file ∈ done := List.mem_reverse.mp (List.mem_of_find?_eq_some last)
    have mem := (select_sublist plan true).subset stale
    exact ⟨file, listed, moduleName_of_location noLinks named worked (part listed) mem leads there⟩
  · intro writes
    rw [recorded_iff prepared wrote stale]
    exact read?_of_written noLinks named identifiers worked part wrote stale writes

/-- The next run compiles all units of which an output is not on disk as it was rendered, just if it is not
the case that a manifest of such a unit was written. -/
theorem makesUp_iff (prepared : prepare tree config toolchain.release files = .ok (ready, plan))
    (wrote : Wrote ready done after)
    (prepared' : prepare later config toolchain.release files = .ok (start, next))
    (units : next.units = plan.units)
    (hashes : ∀ unit ∈ plan.units, next.workspace.store.hashes unit.files = plan.workspace.store.hashes unit.files)
    (kept : ∀ unit ∈ plan.units,
      start.readText (modulePath config unit.primary) = after.readText (modulePath config unit.primary)) :
    (∀ unit ∈ plan.select true, Differs start config toolchain plan unit → unit.primary ∉ next.skipped) ↔
      ∀ unit ∈ plan.select true, Recorded ready config toolchain.release plan done unit →
        ¬Differs start config toolchain plan unit := by
  constructor
  · intro makesUp unit stale recorded differs
    exact makesUp unit stale differs
      ((skipped_iff_recorded prepared wrote prepared' units hashes kept stale).mpr recorded)
  · intro complete unit stale differs skipped
    exact complete unit stale
      ((skipped_iff_recorded prepared wrote prepared' units hashes kept stale).mp skipped) differs

end

/-! ## A blocked document -/

namespace Sample

/-- The project with a directory where the document of its contract has to go. -/
def blocked : FileTree :=
  ⟨project.nodes ++ [(["p", "build"], .directory), (["p", "build", "artifacts"], .directory),
    (["p", "build", "artifacts", "A.json"], .directory)], [], by decide⟩

theorem prepares_blocked : (prepare blocked configuration solc.release files).toOption.isSome = true := by
  decide +kernel

/-- The tree with output directories, and the plan of a run that cannot write the document. -/
@[irreducible] def failed : FileTree × Plan :=
  (prepare blocked configuration solc.release files).toOption.get prepares_blocked

theorem prepared_failed : prepare blocked configuration solc.release files = .ok (failed.1, failed.2) :=
  eq_ok_pair (by rw [failed])

theorem works_blocked : (toWrite configuration solc failed.2).toOption.isSome = true := by decide +kernel

theorem fails_blocked : (compileFiles blocked configuration solc files).result =
    .error (.file (.ofText "/p/build/artifacts/A.json") .isDirectory) := by decide +kernel

/-- What the failed run leaves. -/
@[irreducible] def left : FileTree := (compileFiles blocked configuration solc files).tree

theorem prepares_left : (prepare left configuration solc.release files).toOption.isSome = true := by decide +kernel

@[irreducible] def afterwards : FileTree × Plan :=
  (prepare left configuration solc.release files).toOption.get prepares_left

theorem prepared_afterwards : prepare left configuration solc.release files = .ok (afterwards.1, afterwards.2) :=
  eq_ok_pair (by rw [afterwards])

/-- The contract is skipped although its document is missing. -/
theorem skipped_blocked : ∃ unit ∈ failed.2.select true, unit.primary ∈ afterwards.2.skipped ∧
    ∃ file ∈ (renderedFor configuration solc failed.2 unit).toOption.getD [],
      afterwards.1.readText file.path ≠ .ok file.contents := by
  decide +kernel

end Sample

theorem makesUp_iff_blocked :
    ∃ done, ((∀ unit ∈ Sample.failed.2.select true,
        Differs Sample.afterwards.1 Sample.configuration Sample.solc Sample.failed.2 unit →
          unit.primary ∉ Sample.afterwards.2.skipped) ↔
      ∀ unit ∈ Sample.failed.2.select true,
        Recorded Sample.failed.1 Sample.configuration Sample.solc.release Sample.failed.2 done unit →
          ¬Differs Sample.afterwards.1 Sample.configuration Sample.solc Sample.failed.2 unit) := by
  obtain ⟨done, _, wrote⟩ := wrote_compileFiles Sample.prepared_failed (eq_ok_of_isSome Sample.works_blocked)
  have units : Sample.afterwards.2.units = Sample.failed.2.units := by decide +kernel
  have hashes : ∀ unit ∈ Sample.failed.2.units,
      Sample.afterwards.2.workspace.store.hashes unit.files = Sample.failed.2.workspace.store.hashes unit.files := by
    decide +kernel
  have kept : ∀ unit ∈ Sample.failed.2.units,
      Sample.afterwards.1.readText (modulePath Sample.configuration unit.primary) =
        (compileFiles Sample.blocked Sample.configuration Sample.solc Sample.files).tree.readText
          (modulePath Sample.configuration unit.primary) := by
    decide +kernel
  exact ⟨done, makesUp_iff Sample.prepared_failed wrote Sample.prepared_afterwards units hashes kept⟩

/-- Not everything that a failed run has left undone is made up for. -/
theorem not_makesUp_blocked :
    (compileFiles Sample.blocked Sample.configuration Sample.solc Sample.files).result =
        .error (.file (.ofText "/p/build/artifacts/A.json") .isDirectory) ∧
      ¬∀ unit ∈ Sample.failed.2.select true,
        Differs Sample.afterwards.1 Sample.configuration Sample.solc Sample.failed.2 unit →
          unit.primary ∉ Sample.afterwards.2.skipped := by
  refine ⟨Sample.fails_blocked, fun makesUp => ?_⟩
  obtain ⟨unit, stale, skipped, file, mem, differs⟩ := Sample.skipped_blocked
  cases rendered : renderedFor Sample.configuration Sample.solc Sample.failed.2 unit with
  | error e =>
    rw [rendered] at mem
    cases mem
  | ok files =>
    rw [rendered] at mem
    exact makesUp unit stale ⟨files, rendered, file, mem, differs⟩ skipped

end SolidityBuild.Build
