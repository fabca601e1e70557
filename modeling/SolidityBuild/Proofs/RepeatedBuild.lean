import SolidityBuild.Proofs.BuildRuns

/-!
# Building twice

A build that follows one that ended well, with nothing edited in between, finds what that one left: its own
outputs are files of the tree like any others. It has nothing to do exactly if the patterns still select every
file that was selected, with the same files behind it, and select nothing else that is not up to date
(`idle_iff`).
-/

namespace SolidityBuild.Build

open Artifact (Wrote WellNamed OutputFile modulePath)

/-! ## Builds that end well -/

/-- The steps of a build that ends well: the output directories are in place in the tree `ready`, where the
patterns select the files `chosen`, and of the plan for these `written` are the outputs, all of which get written. -/
structure Completes (tree : FileTree) (config : Configuration) (toolchain : Toolchain) (ready : FileTree)
    (chosen : List Path) (plan : Plan) (written : List OutputFile) : Prop where
  made : Artifact.ensureDirectories config.createDirectories (Artifact.directories config) tree = (.ok (), ready)
  found : Discovery.discover ready config.baseDirectory config.inputs = .ok chosen
  planned : Build.plan ready config toolchain.release chosen = .ok plan
  worked : toWrite config toolchain plan = .ok written
  done : (Artifact.writeAll ready written).1 = .ok ()

section

variable {tree ready after : FileTree} {config : Configuration} {toolchain : Toolchain} {chosen : List Path}
  {plan : Plan} {written : List OutputFile}

/-- With nothing stale a build ends at once. -/
theorem finish_of_idle (idle : plan.select true = []) :
    finish ready config toolchain plan = ⟨.ok ⟨[], plan.skipped, [], 0⟩, ready, 0⟩ := by
  unfold finish
  rw [plan.batch_units, idle]
  rfl

/-- A build ends well just if all of its steps do. -/
theorem exists_completes {report : BuildReport} (ran : (compile tree config toolchain).result = .ok report) :
    ∃ ready chosen plan written, Completes tree config toolchain ready chosen plan written := by
  obtain ⟨e, failed⟩ | ⟨ready, chosen, made, found, same⟩ := compile_cases tree config toolchain
  · rw [failed] at ran
    cases ran
  rw [same] at ran
  obtain ⟨e, failed⟩ | ⟨ready', plan, prepared, same⟩ := compileFiles_cases ready config toolchain chosen
  · rw [failed] at ran
    cases ran
  rw [same] at ran
  obtain ⟨again, planned⟩ := prepare_eq_ok_iff.mp prepared
  obtain ⟨written, worked, all, _⟩ := finish_eq_ok ran
  rw [Artifact.ensureDirectories_eq (Artifact.inPlace_ensureDirectories made)] at again
  cases again
  exact ⟨ready, chosen, plan, written, made, found, planned, worked, all⟩

section

variable (completes : Completes tree config toolchain ready chosen plan written)
include completes

theorem Completes.prepare_eq : prepare ready config toolchain.release chosen = .ok (ready, plan) :=
  prepare_eq_ok_iff.mpr
    ⟨Artifact.ensureDirectories_eq (Artifact.inPlace_ensureDirectories completes.made), completes.planned⟩

theorem Completes.wrote : Wrote ready written (compile tree config toolchain).tree := by
  obtain ⟨done, _, wrote, whole⟩ := Artifact.wrote_writeAll ready written
  rw [whole completes.done] at wrote
  rw [compile_eq completes.made completes.found, compileFiles_of_prepare completes.prepare_eq,
    tree_finish completes.worked]
  exact wrote

/-- The output directories of a build stay in place. -/
theorem Completes.ensureDirectories_eq :
    Artifact.ensureDirectories config.createDirectories (Artifact.directories config) (compile tree config toolchain).tree =
      (.ok (), (compile tree config toolchain).tree) := by
  refine Artifact.ensureDirectories_eq fun directory mem => ?_
  exact (Artifact.inPlace_ensureDirectories completes.made directory mem).imp_left completes.wrote.covers.isDirectory

end

/-! ## The next build -/

/-- A build has found all units of a plan up to date and done nothing. -/
structure Idle (plan : Plan) (tree : FileTree) (outcome : BuildOutcome) : Prop where
  reports : ∃ report, outcome.result = .ok report ∧ report.compiled = [] ∧ report.invocations = 0 ∧
    ∀ unit ∈ plan.units, unit.primary ∈ report.skipped
  tree : outcome.tree = tree
  invocations : outcome.invocations = 0

/-- In a tree the patterns select every primary file of a plan, with the same hashes of its unit, and nothing else
that is not up to date. -/
def FoundAgain (config : Configuration) (release : String) (plan : Plan) (tree : FileTree) : Prop :=
  ∃ chosen next, Discovery.discover tree config.baseDirectory config.inputs = .ok chosen ∧
    Build.plan tree config release chosen = .ok next ∧
    (∀ unit ∈ plan.units, ∃ now ∈ next.units, now.primary = unit.primary ∧
      next.workspace.store.hashes now.files = plan.workspace.store.hashes unit.files) ∧
    ∀ now ∈ next.units, now.primary ∉ plan.units.map (·.primary) →
      isValid tree config release next.workspace.store now = true

/-- With all output directories in place and all selected units up to date, nothing is done. -/
theorem compile_of_valid {next : Plan}
    (inPlace : Artifact.ensureDirectories config.createDirectories (Artifact.directories config) after = (.ok (), after))
    (found : Discovery.discover after config.baseDirectory config.inputs = .ok chosen)
    (planned : Build.plan after config toolchain.release chosen = .ok next)
    (valid : ∀ now ∈ next.units, isValid after config toolchain.release next.workspace.store now = true) :
    compile after config toolchain = ⟨.ok ⟨[], next.skipped, [], 0⟩, after, 0⟩ ∧
      ∀ now ∈ next.units, now.primary ∈ next.skipped := by
  have skipped : ∀ now ∈ next.units, now.primary ∈ next.skipped := fun now mem =>
    (primary_mem_skipped_iff planned mem).mpr (valid now mem)
  refine ⟨?_, skipped⟩
  rw [compile_eq inPlace found, compileFiles_of_prepare (prepare_eq_ok_iff.mpr ⟨inPlace, planned⟩)]
  exact finish_of_idle ((select_eq_nil_iff planned).mpr skipped)

/-- A build that ends well without asking the compiler has found all selected units up to date. -/
theorem valid_of_compile {report : BuildReport} (ran : (compile after config toolchain).result = .ok report)
    (inPlace : Artifact.ensureDirectories config.createDirectories (Artifact.directories config) after = (.ok (), after))
    (asksNone : report.invocations = 0) :
    ∃ chosen next, Discovery.discover after config.baseDirectory config.inputs = .ok chosen ∧
      Build.plan after config toolchain.release chosen = .ok next ∧ report.skipped = next.skipped ∧
      ∀ now ∈ next.units, isValid after config toolchain.release next.workspace.store now = true := by
  obtain ⟨start, chosen, next, written, completes⟩ := exists_completes ran
  obtain rfl : after = start := by
    have made := completes.made
    rw [inPlace] at made
    cases made
    rfl
  rw [compile_eq completes.made completes.found, compileFiles_of_prepare completes.prepare_eq] at ran
  obtain ⟨_, _, _, _, skipped, asked⟩ := finish_eq_ok ran
  have idle : next.select true = [] := by
    rw [asksNone] at asked
    simpa using asked.symm
  exact ⟨chosen, next, completes.found, completes.planned, skipped, fun now mem =>
    (primary_mem_skipped_iff completes.planned mem).mp ((select_eq_nil_iff completes.planned).mp idle now mem)⟩

/-- After a build that ended well, the next one is idle exactly if it finds again what was built. The outputs of the
units have names of their own and are no links, and the contracts that the compiler reports have identifiers as names. -/
theorem idle_iff (completes : Completes tree config toolchain ready chosen plan written)
    (named : WellNamed plan.units) (identifiers : toolchain.NamesIdentifiers)
    (noLinks : NoLinks ready config plan written) :
    Idle plan (compile tree config toolchain).tree (compile (compile tree config toolchain).tree config toolchain) ↔
      FoundAgain config toolchain.release plan (compile tree config toolchain).tree := by
  have inPlace := completes.ensureDirectories_eq
  have recorded {unit : CompilationUnit} (mem : unit ∈ plan.units) :=
    read?_after completes.prepare_eq noLinks named identifiers completes.worked completes.wrote mem
  generalize (compile tree config toolchain).tree = after at inPlace recorded ⊢
  constructor
  · rintro ⟨⟨report, ran, _, asksNone, skipped⟩, _, _⟩
    obtain ⟨chosen', next, found, planned, left, valid⟩ := valid_of_compile ran inPlace asksNone
    refine ⟨chosen', next, found, planned, fun unit mem => ?_, fun now mem _ => valid now mem⟩
    -- The unit was skipped, so its hashes are those in its manifest, which the first build has recorded.
    have again := skipped unit mem
    rw [left, skipped_eq planned, List.mem_map] at again
    obtain ⟨now, listed, same⟩ := again
    have nowMem := (List.mem_filter.mp listed).1
    obtain ⟨current, hashes, module⟩ := isValid_iff.mp (valid now nowMem)
    obtain ⟨before, hashes', module'⟩ := recorded mem
    rw [same, module'] at module
    cases module
    exact ⟨now, nowMem, same, hashes.trans hashes'.symm⟩
  · rintro ⟨chosen', next, found, planned, kept, others⟩
    have valid : ∀ now ∈ next.units, isValid after config toolchain.release next.workspace.store now = true := by
      intro now mem
      by_cases old : now.primary ∈ plan.units.map (·.primary)
      · obtain ⟨unit, unitMem, same⟩ := List.mem_map.mp old
        obtain ⟨now', mem', same', hashes⟩ := kept unit unitMem
        have equal : now' = now :=
          List.inj_on_of_nodup_map (nodup_primaries planned) mem' mem (same'.trans same)
        subst equal
        obtain ⟨current, listed, module⟩ := recorded unitMem
        exact isValid_iff.mpr ⟨current, hashes.trans listed, same' ▸ module⟩
      · exact others now mem old
    obtain ⟨outcome, skipped⟩ := compile_of_valid inPlace found planned valid
    rw [outcome]
    refine ⟨⟨_, rfl, rfl, rfl, fun unit mem => ?_⟩, rfl, rfl⟩
    obtain ⟨now, nowMem, same, _⟩ := kept unit mem
    exact same ▸ skipped now nowMem

end

namespace Overlap

open Sample (project solc)

/-- The second pattern selects the flattened source of the file that the first one selects. -/
def configuration : Configuration :=
  { Sample.configuration with inputs := ["contracts/A.sol", "build/A_all.sol"] }

def ready : FileTree :=
  (Artifact.ensureDirectories configuration.createDirectories (Artifact.directories configuration) project).2

def source : Path := .ofText "/p/contracts/A.sol"

theorem plans : (Build.plan ready configuration solc.release [source]).toOption.isSome = true := by decide +kernel

@[irreducible] def plan : Plan := (Build.plan ready configuration solc.release [source]).toOption.get plans

theorem planned : Build.plan ready configuration solc.release [source] = .ok plan := by
  rw [eq_ok_of_isSome plans, plan]

theorem works : (toWrite configuration solc plan).toOption.isSome = true := by decide +kernel

@[irreducible] def written : List OutputFile := (toWrite configuration solc plan).toOption.get works

theorem completes : Completes project configuration solc ready [source] plan written where
  made := Prod.ext (by decide +kernel) rfl
  found := by decide +kernel
  planned := planned
  worked := by rw [eq_ok_of_isSome works, written]
  done := by decide +kernel

def after : FileTree := (compile project configuration solc).tree

/-- The flattened source that the first build wrote. -/
def output : Path := .ofText "/p/build/A_all.sol"

theorem found : Discovery.discover after configuration.baseDirectory configuration.inputs = .ok [output, source] := by
  decide +kernel

theorem plans_after : (Build.plan after configuration solc.release [output, source]).toOption.isSome = true := by
  decide +kernel

@[irreducible] def next : Plan :=
  (Build.plan after configuration solc.release [output, source]).toOption.get plans_after

theorem planned_after : Build.plan after configuration solc.release [output, source] = .ok next := by
  rw [eq_ok_of_isSome plans_after, next]

theorem outdated : ∃ now ∈ next.units, now.primary ∉ plan.units.map (·.primary) ∧
    isValid after configuration solc.release next.workspace.store now = false := by
  decide +kernel

end Overlap

/-- Where a pattern selects an output, a build that ended well is followed by one that is not idle. -/
theorem not_idle_overlap :
    Completes Sample.project Overlap.configuration Sample.solc Overlap.ready [Overlap.source] Overlap.plan
        Overlap.written ∧
      ¬Idle Overlap.plan (compile Sample.project Overlap.configuration Sample.solc).tree
        (compile (compile Sample.project Overlap.configuration Sample.solc).tree Overlap.configuration
          Sample.solc) := by
  have named : WellNamed Overlap.plan.units := ⟨by decide +kernel, by decide +kernel⟩
  have noLinks : NoLinks Overlap.ready Overlap.configuration Overlap.plan Overlap.written :=
    ⟨by decide +kernel, by decide +kernel⟩
  refine ⟨Overlap.completes, fun idle => ?_⟩
  obtain ⟨chosen, next, found, planned, _, valid⟩ :=
    (idle_iff Overlap.completes named Sample.namesIdentifiers_solc noLinks).mp idle
  obtain rfl : [Overlap.output, Overlap.source] = chosen := Except.ok.inj (Overlap.found.symm.trans found)
  obtain rfl : Overlap.next = next := Except.ok.inj (Overlap.planned_after.symm.trans planned)
  obtain ⟨now, mem, new, outdated⟩ := Overlap.outdated
  have upToDate := valid now mem new
  rw [Overlap.after] at outdated
  rw [outdated] at upToDate
  cases upToDate

end SolidityBuild.Build
