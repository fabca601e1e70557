import SolidityBuild.Proofs.BuildRuns

/-!
# Builds that fail early

A build that fails leaves every entry of the tree as it was, apart from new output directories, unless it got
as far as writing and a write failed (`error_cases`).
-/

namespace SolidityBuild.Build

open FileTree (OnlyCreates)

/-- The output directories and the directories above them. -/
def outputPlaces (config : Configuration) : List Path := (Artifact.directories config).flatMap Path.ancestors

/-- A build of given files gets as far as writing, and then a write fails. -/
def FailsToWrite (tree : FileTree) (config : Configuration) (toolchain : Toolchain) (files : List Path) (e : Error) :
    Prop :=
  ∃ ready plan written, prepare tree config toolchain.release files = .ok (ready, plan) ∧
    toWrite config toolchain plan = .ok written ∧ (Artifact.writeAll ready written).1 = .error e

section

variable {tree ready : FileTree} {config : Configuration} {toolchain : Toolchain} {files : List Path} {plan : Plan}
  {e : Error}

/-- Until something is written, a build that has a plan leaves the tree alone. -/
theorem finish_eq_error (failed : (finish ready config toolchain plan).result = .error e) :
    (finish ready config toolchain plan).tree = ready ∨
      ∃ written, toWrite config toolchain plan = .ok written ∧ (Artifact.writeAll ready written).1 = .error e := by
  obtain ⟨_, _, _, same⟩ | ⟨_, _, same⟩ | ⟨written, _, _, worked, same⟩ := finish_cases ready config toolchain plan
  · exact .inl (by rw [same])
  · exact .inl (by rw [same])
  rw [same] at failed
  refine .inr ⟨written, worked, ?_⟩
  cases all : (Artifact.writeAll ready written).1 with
  | ok done => simp [all, Except.map] at failed
  | error fault => simpa [all, Except.map] using failed

theorem compileFiles_eq_error (failed : (compileFiles tree config toolchain files).result = .error e) :
    OnlyCreates (outputPlaces config) tree (compileFiles tree config toolchain files).tree ∨
      FailsToWrite tree config toolchain files e := by
  have creates := Artifact.onlyCreates_ensureDirectories config.createDirectories (Artifact.directories config) tree
  obtain ⟨_, same⟩ | ⟨ready, plan, prepared, same⟩ := compileFiles_cases tree config toolchain files
  · rw [same]
    exact .inl creates
  rw [same] at failed ⊢
  rw [(prepare_eq_ok_iff.mp prepared).1] at creates
  rcases finish_eq_error failed with unchanged | ⟨written, worked, fault⟩
  · rw [unchanged]
    exact .inl creates
  · exact .inr ⟨ready, plan, written, prepared, worked, fault⟩

/-- When a build fails, no entry of the tree is changed or removed and only output directories and directories
above them are new; or else everything up to the writing has succeeded and the error is that of a write. -/
theorem error_cases (tree : FileTree) (config : Configuration) (toolchain : Toolchain) :
    (∀ files e, (compileFiles tree config toolchain files).result = .error e →
      OnlyCreates (outputPlaces config) tree (compileFiles tree config toolchain files).tree ∨
        FailsToWrite tree config toolchain files e) ∧
    ∀ e, (compile tree config toolchain).result = .error e →
      OnlyCreates (outputPlaces config) tree (compile tree config toolchain).tree ∨
        ∃ ready chosen,
          Artifact.ensureDirectories config.createDirectories (Artifact.directories config) tree = (.ok (), ready) ∧
            Discovery.discover ready config.baseDirectory config.inputs = .ok chosen ∧
            FailsToWrite ready config toolchain chosen e := by
  refine ⟨fun files e => compileFiles_eq_error, fun e failed => ?_⟩
  have creates := Artifact.onlyCreates_ensureDirectories config.createDirectories (Artifact.directories config) tree
  obtain ⟨_, same⟩ | ⟨ready, chosen, made, found, same⟩ := compile_cases tree config toolchain
  · rw [same]
    exact .inl creates
  rw [same] at failed ⊢
  rw [made] at creates
  rcases compileFiles_eq_error failed with later | fault
  · exact .inl (creates.trans later)
  · exact .inr ⟨ready, chosen, made, found, fault⟩

end

namespace Sample

/-- A project whose contract has an import that is missing. -/
def incomplete : FileTree :=
  ⟨[(["p"], .directory), (["p", "contracts"], .directory),
    (["p", "contracts", "A.sol"], .file (.text "import \"./B.sol\";\ncontract A {}\n"))], [], by decide⟩

end Sample

theorem error_cases_incomplete :
    OnlyCreates (outputPlaces Sample.configuration) Sample.incomplete
        (compileFiles Sample.incomplete Sample.configuration Sample.solc Sample.files).tree ∧
      Sample.incomplete.node? ["p", "build", "artifacts"] = none ∧
      (compileFiles Sample.incomplete Sample.configuration Sample.solc Sample.files).tree.node?
        ["p", "build", "artifacts"] = some .directory := by
  have unprepared : (prepare Sample.incomplete Sample.configuration Sample.solc.release Sample.files).toOption.isSome =
      false := by decide +kernel
  have failed : (compileFiles Sample.incomplete Sample.configuration Sample.solc Sample.files).result =
      .error (.sourceNotFound "./B.sol" (some (.ofText "/p/contracts/A.sol"))
        (SourceStore.candidates (.ofText "/p") "./B.sol" (.ofText "/p/contracts"))) := by decide +kernel
  refine ⟨?_, by decide +kernel, by decide +kernel⟩
  rcases (error_cases _ _ _).1 _ _ failed with creates | ⟨ready, plan, written, prepared, _⟩
  · exact creates
  · rw [prepared] at unprepared
    cases unprepared

end SolidityBuild.Build
