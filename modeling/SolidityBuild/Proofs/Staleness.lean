import SolidityBuild.Build
import SolidityBuild.Proofs.RequestNames

/-!
# When a unit is stale

A unit is up to date exactly if its module reads as the manifest of its current hashes and the current
release. Counting the hashes and looking each of them up decides whether the recorded hashes are all the
current ones (`Manifest.isStale_eq_false_iff`), and as long as no hash stands for two contents this is the
question whether the files of the unit and their contents are the same.
-/

namespace SolidityBuild

namespace Manifest

/-- A manifest is valid if it records just the current hashes and the current release. -/
theorem isStale_eq_false_iff {manifest : Option Manifest} {current : Dict String} {release : String} :
    isStale manifest current release = false ↔ manifest = some ⟨current, some release⟩ := by
  cases manifest with
  | none => simp [isStale]
  | some recorded =>
    obtain ⟨hashes, recordedRelease⟩ := recorded
    simp only [isStale, Bool.or_eq_false_iff, bne_eq_false_iff_eq, List.any_eq_false, bne_iff_ne, ne_eq,
      Decidable.not_not, Option.some.injEq, Manifest.mk.injEq]
    constructor
    · rintro ⟨⟨release, size⟩, listed⟩
      exact ⟨Dict.eq_of_size_of_subset size listed, release⟩
    · rintro ⟨rfl, release⟩
      exact ⟨⟨release, rfl⟩, fun entry mem => Dict.get?_eq_some_iff.mpr mem⟩

theorem read?_eq_some_iff {tree : FileTree} {p : Path} {manifest : Manifest} :
    read? tree p = some manifest ↔
      manifest.isEmpty = false ∧ ∃ text, tree.readText p = .ok text ∧ parse text = manifest := by
  unfold read? load
  cases tree.readText p with
  | error fault => simp [Except.toOption]
  | ok text =>
    by_cases empty : (parse text).isEmpty
    · simp only [empty, if_true, Except.toOption, reduceCtorEq, Except.ok.injEq, exists_eq_left', false_iff]
      rintro ⟨notEmpty, rfl⟩
      rw [empty] at notEmpty
      cases notEmpty
    · simp only [empty, Bool.false_eq_true, if_false, Except.toOption, Option.some.injEq, Except.ok.injEq,
        exists_eq_left']
      constructor
      · rintro rfl
        exact ⟨by simpa using empty, rfl⟩
      · exact fun same => same.2

/-- A text that records a release counts as a manifest. -/
theorem read?_of_release {tree : FileTree} {p : Path} {text release : String} {hashes : Dict String}
    (read : tree.readText p = .ok text) (recorded : parse text = ⟨hashes, some release⟩) :
    read? tree p = some ⟨hashes, some release⟩ :=
  read?_eq_some_iff.mpr ⟨by simp [isEmpty], text, read, recorded⟩

end Manifest

/-! ## Contents -/

namespace SourceStore

/-- The content of every file of a unit, by the key of the file. -/
def contents (store : SourceStore) (files : List Path) : Result (Dict String) := do
  let entries ← files.mapM fun p => do return (p.key store.base, (← store.unit p).content)
  return Dict.ofList entries

theorem hashes_eq (store : SourceStore) (files : List Path) :
    store.hashes files = (store.contents files).map (·.mapValues Digest.Sha256.hexDigest) := by
  have entries : files.mapM (fun p => do return (p.key store.base, (← store.unit p).hash)) =
      (files.mapM fun p => do return (p.key store.base, (← store.unit p).content)).map
        (List.map fun entry : String × String => (entry.1, Digest.Sha256.hexDigest entry.2)) := by
    induction files with
    | nil => rfl
    | cons p rest ih =>
      rw [List.mapM_cons, List.mapM_cons, ih]
      cases store.unit p with
      | error e => rfl
      | ok unit =>
        cases rest.mapM fun p => do return (p.key store.base, (← store.unit p).content) <;> rfl
  unfold hashes contents
  rw [entries]
  cases files.mapM fun p => do return (p.key store.base, (← store.unit p).content) with
  | error e => rfl
  | ok listed => simp [bind, Except.bind, pure, Except.pure, Except.map, Dict.mapValues_ofList]

end SourceStore

/-- No content of one dictionary has the hash of another content of the other one. -/
def NoCollision (first second : Dict String) : Prop :=
  ∀ x ∈ first.values, ∀ y ∈ second.values, Digest.Sha256.hexDigest x = Digest.Sha256.hexDigest y → x = y

namespace Build

/-- Whether a build finds that the outputs of a unit are still valid. -/
def isValid (tree : FileTree) (config : Configuration) (release : String) (store : SourceStore)
    (unit : CompilationUnit) : Bool :=
  (isStale tree config release store unit).toOption = some false

theorem isStale_eq_ok_iff {tree : FileTree} {config : Configuration} {release : String} {store : SourceStore}
    {unit : CompilationUnit} {stale : Bool} :
    isStale tree config release store unit = .ok stale ↔ ∃ current, store.hashes unit.files = .ok current ∧
      Manifest.isStale (Manifest.read? tree (Artifact.modulePath config unit.primary)) current release = stale := by
  unfold isStale
  rw [bind_eq_ok_iff]
  simp [pure, Except.pure]

/-- The outputs of a unit are valid if its module is the manifest of the current hashes and release. -/
theorem isValid_iff {tree : FileTree} {config : Configuration} {release : String} {store : SourceStore}
    {unit : CompilationUnit} :
    isValid tree config release store unit = true ↔ ∃ current, store.hashes unit.files = .ok current ∧
      Manifest.read? tree (Artifact.modulePath config unit.primary) = some ⟨current, some release⟩ := by
  have ok : isValid tree config release store unit = true ↔
      isStale tree config release store unit = .ok false := by
    unfold isValid
    cases isStale tree config release store unit <;> simp [Except.toOption]
  rw [ok, isStale_eq_ok_iff]
  simp only [Manifest.isStale_eq_false_iff]

/-- With a module that is the manifest of some contents and some release, a unit is valid exactly if the
release is the current one and the contents are those of its files. -/
theorem isValid_of_recorded {tree : FileTree} {config : Configuration} {recorded release : String}
    {store : SourceStore} {unit : CompilationUnit} {before now : Dict String}
    (module : Manifest.read? tree (Artifact.modulePath config unit.primary) =
      some ⟨before.mapValues Digest.Sha256.hexDigest, some recorded⟩)
    (contents : store.contents unit.files = .ok now) (noCollision : NoCollision before now) :
    isValid tree config release store unit = true ↔ release = recorded ∧ before = now := by
  have hashes : store.hashes unit.files = .ok (now.mapValues Digest.Sha256.hexDigest) := by
    rw [store.hashes_eq, contents]
    rfl
  rw [isValid_iff, module]
  constructor
  · rintro ⟨current, listed, same⟩
    rw [hashes] at listed
    cases listed
    simp only [Option.some.injEq, Manifest.mk.injEq] at same
    exact ⟨same.2.symm, (Dict.mapValues_inj noCollision).mp same.1⟩
  · rintro ⟨rfl, rfl⟩
    exact ⟨_, hashes, rfl⟩

/-! ## Plans -/

section

variable {tree : FileTree} {config : Configuration} {release : String} {files : List Path} {plan : Plan}

/-- Planning loads the selected files, expands all of them, and decides for every unit whether it is stale. -/
theorem plan_eq_ok_iff :
    Build.plan tree config release files = .ok plan ↔ ∃ primaries store,
      (SourceStore.new config.baseDirectory config.constants).loadPrimaries tree files = .ok (primaries, store) ∧
        expandAll tree ⟨store, .empty⟩ primaries = (.ok plan.units, plan.workspace) ∧
        plan.units.mapM (isStale tree config release plan.workspace.store) = .ok plan.stale := by
  unfold Build.plan
  constructor
  · intro planned
    obtain ⟨⟨primaries, store⟩, loaded, planned⟩ := bind_eq_ok_iff.mp planned
    dsimp only at planned
    obtain ⟨units, expanded, planned⟩ := bind_eq_ok_iff.mp planned
    obtain ⟨stale, decided, planned⟩ := bind_eq_ok_iff.mp planned
    cases planned
    exact ⟨primaries, store, loaded, Prod.ext expanded rfl, decided⟩
  · rintro ⟨primaries, store, loaded, expanded, decided⟩
    refine bind_eq_ok_iff.mpr ⟨_, loaded, ?_⟩
    have start : (Workspace.new config.baseDirectory config.constants).graph = .empty := rfl
    dsimp only
    rw [start, expanded]
    exact bind_eq_ok_iff.mpr ⟨_, rfl, bind_eq_ok_iff.mpr ⟨_, decided, rfl⟩⟩

theorem mapM_isStale (planned : Build.plan tree config release files = .ok plan) :
    plan.units.mapM (isStale tree config release plan.workspace.store) = .ok plan.stale := by
  obtain ⟨_, _, _, _, decided⟩ := plan_eq_ok_iff.mp planned
  exact decided

theorem select_eq (planned : Build.plan tree config release files = .ok plan) (stale : Bool) :
    plan.select stale =
      plan.units.filter fun unit => isValid tree config release plan.workspace.store unit = !stale := by
  have decided := mapM_eq_ok_iff.mp (mapM_isStale planned)
  unfold Plan.select
  generalize plan.units = units at decided ⊢
  generalize plan.stale = flags at decided ⊢
  induction decided with
  | nil => rfl
  | @cons unit flag units flags here _ ih =>
    have valid : isValid tree config release plan.workspace.store unit = !flag := by
      cases flag <;> simp [isValid, here, Except.toOption]
    rw [List.zip_cons_cons, List.filterMap_cons, List.filter_cons, ih, valid]
    cases flag <;> cases stale <;> simp

/-- Two calls that give the same entries give the same contents. -/
theorem ok_of_same_entries {action other : Result (Dict String)} {contents : Dict String} (found : action = .ok contents)
    (same : action.toOption.map (·.entries) = other.toOption.map (·.entries)) : other = .ok contents := by
  rw [found] at same
  cases other with
  | error e => cases same
  | ok contents' => exact congrArg Except.ok (Dict.eq_of_entries (Option.some.inj same)).symm

/-- Every unit of a plan has contents. -/
theorem contents_of_mem (planned : Build.plan tree config release files = .ok plan) {unit : CompilationUnit}
    (mem : unit ∈ plan.units) : ∃ contents, plan.workspace.store.contents unit.files = .ok contents := by
  obtain ⟨stale, _, decided⟩ := ok_of_mem_of_mapM (mapM_isStale planned) mem
  obtain ⟨current, listed, _⟩ := isStale_eq_ok_iff.mp decided
  rw [SourceStore.hashes_eq, map_eq_ok_iff] at listed
  obtain ⟨contents, found, _⟩ := listed
  exact ⟨contents, found⟩

end

end Build

/-- The units that are sent to the compiler are the stale ones. -/
theorem Build.Plan.batch_units (plan : Build.Plan) : plan.batch.units = plan.select true :=
  Batch.units_ofUnits _ _

end SolidityBuild
