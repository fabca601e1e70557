import SolidityBuild.Proofs.BuildRuns
import Mathlib.Tactic.MkIffOfInductiveProp

/-!
# Incremental builds are exact

After a run that ended well, a later run leaves out just the selected files of which neither the release
nor the contents of the unit have changed. It does not matter which of them the first run compiled and
which it left out itself, nor what else has been edited in between.
-/

namespace SolidityBuild.Build

open Artifact (Wrote WellNamed OutputFile modulePath)
open FileTree (Keeps)

/-- Values of a function that separates the members of a list can be selected among all its values. -/
theorem map_filter_eq {α β : Type} [DecidableEq β] {f : α → β} {xs : List α} (nodup : (xs.map f).Nodup)
    (p : α → Bool) :
    (xs.filter p).map f = (xs.map f).filter (· ∈ (xs.filter p).map f) ∧
      (xs.filter (!p ·)).map f = (xs.map f).filter (· ∉ (xs.filter p).map f) := by
  have mem : ∀ x ∈ xs, f x ∈ (xs.filter p).map f ↔ p x = true := by
    intro x listed
    constructor
    · intro chosen
      obtain ⟨y, kept, same⟩ := List.mem_map.mp chosen
      obtain ⟨listed', passes⟩ := List.mem_filter.mp kept
      rw [← List.inj_on_of_nodup_map nodup listed' listed same]
      exact passes
    · exact fun passes => List.mem_map_of_mem (List.mem_filter.mpr ⟨listed, passes⟩)
  rw [List.filter_map, List.filter_map]
  constructor
  · congr 1
    refine List.filter_congr fun x listed => ?_
    simp only [Function.comp_apply, mem x listed, Bool.decide_eq_true]
  · congr 1
    refine List.filter_congr fun x listed => ?_
    simp only [Function.comp_apply, mem x listed]
    cases p x <;> rfl

/-! ## Two runs -/

/-- What is assumed about two runs and what was edited between them. The trees are the one in which the first
run planned, the one that it left, and the one in which the second run starts. -/
structure Comparable (config : Configuration) (old : Toolchain) (ready after edited : FileTree)
    (first second : Plan) (written : List OutputFile) : Prop where
  named : WellNamed first.units
  identifiers : old.NamesIdentifiers
  noLinks : NoLinks ready config first written
  /-- The modules are not edited. -/
  kept : ∀ unit ∈ first.units,
    edited.readText (modulePath config unit.primary) = after.readText (modulePath config unit.primary)
  /-- No hash stands for two contents. -/
  noCollision : ∀ before ∈ first.workspace.store.units, ∀ now ∈ second.workspace.store.units,
    before.hash = now.hash → before.content = now.content

theorem exists_unit_of_mem_contents {store : SourceStore} {files : List Path} {contents : Dict String}
    (found : store.contents files = .ok contents) {text : String} (mem : text ∈ contents.values) :
    ∃ unit ∈ store.units, unit.content = text := by
  obtain ⟨entries, listed, whole⟩ := bind_eq_ok_iff.mp found
  cases whole
  obtain ⟨⟨key, value⟩, inside, rfl⟩ := List.mem_map.mp mem
  have look := Dict.get?_eq_some_iff.mpr inside
  rw [Dict.get?_ofList] at look
  have entry := List.mem_reverse.mp (Entries.mem_of_find? look)
  obtain ⟨p, _, read⟩ := mem_of_mem_of_mapM listed entry
  obtain ⟨unit, stored, same⟩ := bind_eq_ok_iff.mp read
  cases same
  exact ⟨unit, List.mem_of_find?_eq_some (SourceStore.unit_eq_ok_iff.mp stored), rfl⟩

section

variable {config : Configuration} {old new : Toolchain} {tree ready after edited start : FileTree}
  {files : List Path} {first second : Plan} {written : List OutputFile}

/-- A unit of the second run is valid exactly if the release and the contents are those of the first one. -/
theorem isValid_iff_unchanged (prepared : prepare tree config old.release files = .ok (ready, first))
    (worked : toWrite config old first = .ok written) (wrote : Wrote ready written after)
    (comparable : Comparable config old ready after edited first second written) (keeps : Keeps edited start)
    {before now : CompilationUnit} (mem : before ∈ first.units) (same : now.primary = before.primary)
    {contents contents' : Dict String} (found : first.workspace.store.contents before.files = .ok contents)
    (found' : second.workspace.store.contents now.files = .ok contents') :
    isValid start config new.release second.workspace.store now = true ↔
      new.release = old.release ∧ contents = contents' := by
  obtain ⟨hashes, listed, recorded⟩ := read?_after prepared comparable.noLinks comparable.named
    comparable.identifiers worked wrote mem
  rw [SourceStore.hashes_eq, found] at listed
  cases listed
  obtain ⟨notEmpty, text, read, parsed⟩ := Manifest.read?_eq_some_iff.mp recorded
  have readNow : start.readText (modulePath config now.primary) = .ok text := by
    rw [same]
    exact keeps.readText ((comparable.kept before mem).trans read)
  refine isValid_of_recorded (Manifest.read?_of_release readNow parsed) found' ?_
  intro x mem y mem' collide
  obtain ⟨unit, stored, rfl⟩ := exists_unit_of_mem_contents found mem
  obtain ⟨unit', stored', rfl⟩ := exists_unit_of_mem_contents found' mem'
  exact comparable.noCollision unit stored unit' stored' collide

/-- A unit is skipped by the second run just if the release and the contents are those of the first one. -/
theorem mem_skipped_iff_unchanged {files' : List Path} {report : BuildReport}
    (ran : (compileFiles tree config old files).result = .ok report)
    (prepared : prepare tree config old.release files = .ok (ready, first))
    (worked : toWrite config old first = .ok written)
    (prepared' : prepare edited config new.release files' = .ok (start, second))
    (comparable : Comparable config old ready (compileFiles tree config old files).tree edited first second written)
    {before now : CompilationUnit} (mem : before ∈ first.units) (mem' : now ∈ second.units)
    (same : now.primary = before.primary) {contents contents' : Dict String}
    (found : first.workspace.store.contents before.files = .ok contents)
    (found' : second.workspace.store.contents now.files = .ok contents') :
    now.primary ∈ second.skipped ↔ new.release = old.release ∧ contents = contents' := by
  obtain ⟨wrote, _⟩ := done_of_run ran prepared worked
  obtain ⟨made', planned'⟩ := prepare_eq_ok_iff.mp prepared'
  have keeps : Keeps edited start := by
    have steps := Artifact.keeps_ensureDirectories config.createDirectories (Artifact.directories config) edited
    rwa [made'] at steps
  rw [primary_mem_skipped_iff planned' mem']
  exact isValid_iff_unchanged prepared worked wrote comparable keeps mem same found found'

/-- A run without stale units changes no file. -/
theorem node?_file_of_idle {left : FileTree} (keeps : Keeps edited start)
    (worked : toWrite config new second = .ok written) (wrote : Wrote start written left)
    (idle : second.select true = []) (location : Location) (content : Content) :
    left.node? location = some (.file content) ↔ edited.node? location = some (.file content) := by
  have nothing : written = [] :=
    List.eq_nil_iff_forall_not_mem.mpr fun _ mem => exists_stale_of_mem worked mem idle
  subst nothing
  cases wrote
  constructor
  · intro entry
    rcases keeps.added entry with there | directory
    · exact there
    · cases directory
  · exact keeps.entry

/-- Of two successful runs over the same selected files the second one skips exactly the files whose
release, unit and contents are the same as in the first one. What it compiles and what it skips make up the
selected files in their order; it asks no compiler just if it skips all of them, and then no file changes. -/
theorem skipped_iff_unchanged {report report' : BuildReport} {chosen : List Path}
    (ran : (compileFiles tree config old files).result = .ok report)
    (prepared : prepare tree config old.release files = .ok (ready, first))
    (worked : toWrite config old first = .ok written)
    (ran' : (compileFiles edited config new files).result = .ok report')
    (prepared' : prepare edited config new.release files = .ok (start, second))
    (selected : primaries ready config files = .ok chosen) (selected' : primaries start config files = .ok chosen)
    (comparable : Comparable config old ready (compileFiles tree config old files).tree edited first second written) :
    (∀ p, p ∈ report'.skipped ↔ new.release = old.release ∧ ∃ before ∈ first.units, ∃ now ∈ second.units,
      before.primary = p ∧ now.primary = p ∧ ∃ contents,
        first.workspace.store.contents before.files = .ok contents ∧
          second.workspace.store.contents now.files = .ok contents) ∧
      report'.skipped = chosen.filter (· ∈ report'.skipped) ∧
      report'.compiled = chosen.filter (· ∉ report'.skipped) ∧
      (report'.invocations = 0 ↔ ∀ p ∈ chosen, p ∈ report'.skipped) ∧
      (report'.invocations = 0 → ∀ location content,
        (compileFiles edited config new files).tree.node? location = some (.file content) ↔
          edited.node? location = some (.file content)) := by
  obtain ⟨_, _, _, prepared₁, worked₁, wrote, _⟩ := compileFiles_eq_ok ran
  rw [prepared] at prepared₁
  cases prepared₁
  rw [worked] at worked₁
  cases worked₁
  obtain ⟨_, _, written', prepared₂, worked', wrote', compiled, skipped, invocations⟩ := compileFiles_eq_ok ran'
  rw [prepared'] at prepared₂
  cases prepared₂
  obtain ⟨made, planned⟩ := prepare_eq_ok_iff.mp prepared
  obtain ⟨made', planned'⟩ := prepare_eq_ok_iff.mp prepared'
  have keeps : Keeps edited start := by
    have steps := Artifact.keeps_ensureDirectories config.createDirectories (Artifact.directories config) edited
    rwa [made'] at steps
  rw [primaries_eq planned] at selected
  rw [primaries_eq planned'] at selected'
  have units : first.units.map (·.primary) = chosen := Except.ok.inj selected
  have units' : second.units.map (·.primary) = chosen := Except.ok.inj selected'
  have parts := map_filter_eq (nodup_primaries planned') (isValid start config new.release second.workspace.store)
  rw [← skipped_eq planned', units'] at parts
  have stale : second.select true =
      second.units.filter (!isValid start config new.release second.workspace.store ·) := by
    rw [select_eq planned']
    simp
  have idle : report'.invocations = 0 ↔ second.select true = [] := by
    rw [invocations]
    cases second.select true <;> simp
  rw [skipped]
  refine ⟨fun p => ?_, parts.1, ?_, ?_, ?_⟩
  · constructor
    · intro inside
      rw [skipped_eq planned', List.mem_map] at inside
      obtain ⟨now, kept, rfl⟩ := inside
      obtain ⟨mem', valid⟩ := List.mem_filter.mp kept
      have chosen' : now.primary ∈ first.units.map (·.primary) := by
        rw [units, ← units']
        exact List.mem_map_of_mem mem'
      obtain ⟨before, mem, same⟩ := List.mem_map.mp chosen'
      obtain ⟨contents, found⟩ := contents_of_mem planned mem
      obtain ⟨contents', found'⟩ := contents_of_mem planned' mem'
      obtain ⟨release, equal⟩ :=
        (isValid_iff_unchanged prepared worked wrote comparable keeps mem same.symm found found').mp valid
      subst equal
      exact ⟨release, before, mem, now, mem', same, rfl, contents, found, found'⟩
    · rintro ⟨release, before, mem, now, mem', rfl, same, contents, found, found'⟩
      rw [← same, primary_mem_skipped_iff planned' mem']
      exact (isValid_iff_unchanged prepared worked wrote comparable keeps mem same found found').mpr ⟨release, rfl⟩
  · rw [compiled, stale]
    exact parts.2
  · rw [idle, select_eq_nil_iff planned', ← units']
    exact List.forall_mem_map.symm
  · intro asksNone
    exact node?_file_of_idle keeps worked' wrote' (idle.mp asksNone)

end

/-! ## One of two files is changed -/

namespace Halves

def edits : Path := .ofText "/p/contracts/A.sol"

def stays : Path := .ofText "/p/contracts/B.sol"

def library : Path := .ofText "/p/contracts/Lib.sol"

def files : List Path := [edits, stays]

/-- A project with two files that import a third one. -/
def project : FileTree :=
  ⟨[(["p"], .directory), (["p", "contracts"], .directory),
    (["p", "contracts", "A.sol"], .file (.text "import \"./Lib.sol\";\ncontract A {}\n")),
    (["p", "contracts", "B.sol"], .file (.text "import \"./Lib.sol\";\ncontract B {}\n")),
    (["p", "contracts", "Lib.sol"], .file (.text "library Lib {}\n"))], [], by decide⟩

def configuration : Configuration := .withBase project (.ofText "/p")

/-- A compiler that finds a contract in each of the two files. -/
def solc : Toolchain where
  name := "solc"
  version := Version.default
  run _ :=
    let contracts := Dict.ofList [("/p/contracts/A.sol", Dict.ofList [("A", ⟨.object []⟩)]),
      ("/p/contracts/B.sol", Dict.ofList [("B", ⟨.object []⟩)])]
    ⟨0, .ok ⟨[], contracts, Dict.empty, .object []⟩⟩

theorem namesIdentifiers : solc.NamesIdentifiers := by
  intro request result answered
  cases answered
  exact CompilerResult.namesIdentifiers_of_contracts (by decide)

/-- The project after the first run and a change to one of the two files. -/
def edited : FileTree :=
  (compileFiles project configuration solc files).tree.setNode ["p", "contracts", "A.sol"]
    (.file (.text "import \"./Lib.sol\";\ncontract A { uint x; }\n"))

def changed : CompilationUnit := ⟨edits, [library]⟩

def unchanged : CompilationUnit := ⟨stays, [library]⟩

def units : List CompilationUnit := [changed, unchanged]

/-- What both runs load. -/
def texts : List String :=
  ["import \"./Lib.sol\";\ncontract A {}\n", "import \"./Lib.sol\";\ncontract B {}\n", "library Lib {}\n",
    "import \"./Lib.sol\";\ncontract A { uint x; }\n"]

/-- The trees and the plans of both runs, and what the first one writes. -/
structure Runs where
  ready : FileTree
  first : Plan
  written : List OutputFile
  start : FileTree
  second : Plan

def runs : Option Runs := do
  let (ready, first) ← (prepare project configuration solc.release files).toOption
  let written ← (toWrite configuration solc first).toOption
  let (start, second) ← (prepare edited configuration solc.release files).toOption
  return ⟨ready, first, written, start, second⟩

/-- The plan to compile the changed unit. -/
def alone (r : Runs) : Plan := ⟨r.second.workspace, [changed], [true]⟩

/-- What an evaluation of both runs shows. -/
@[mk_iff]
structure Shown (r : Runs) : Prop where
  planned : r.first.units = units
  planned' : r.second.units = units
  selected : primaries r.ready configuration files = .ok files
  selected' : primaries r.start configuration files = .ok files
  differ : (r.first.workspace.store.contents changed.files).toOption.map (·.entries) ≠
    (r.second.workspace.store.contents changed.files).toOption.map (·.entries)
  same : (r.first.workspace.store.contents unchanged.files).toOption.map (·.entries) =
    (r.second.workspace.store.contents unchanged.files).toOption.map (·.entries)
  loaded : ∀ unit ∈ r.first.workspace.store.units, unit.content ∈ texts
  loaded' : ∀ unit ∈ r.second.workspace.store.units, unit.content ∈ texts
  leads : ∀ unit ∈ units,
    (compileFiles project configuration solc files).tree.locate (modulePath configuration unit.primary) =
      .ok ["p", "build", Artifact.moduleName unit.primary]
  leads' : ∀ unit ∈ units, edited.locate (modulePath configuration unit.primary) =
    .ok ["p", "build", Artifact.moduleName unit.primary]
  noLinks : NoLinks r.ready configuration r.first r.written
  writes : (Artifact.writeAll r.ready r.written).1 = .ok ()
  writes' : (toWrite configuration solc (alone r)).toOption.any (fun written =>
    (Artifact.writeAll r.start written).1 = .ok ()) = true

instance (r : Runs) : Decidable (Shown r) := decidable_of_iff _ (shown_iff r).symm

-- Each evaluation of a run hashes the files anew, so whatever takes one is evaluated together.
theorem exists_runs : ∃ r, runs = some r ∧ Shown r := by
  have evaluated : runs.any (fun r => decide (Shown r)) = true := by decide +kernel
  obtain ⟨r, made, shown⟩ := (Option.any_eq_true _ _).mp evaluated
  exact ⟨r, made, of_decide_eq_true shown⟩

variable {r : Runs}

theorem prepared_of_runs (made : runs = some r) :
    prepare project configuration solc.release files = .ok (r.ready, r.first) ∧
      toWrite configuration solc r.first = .ok r.written ∧
      prepare edited configuration solc.release files = .ok (r.start, r.second) := by
  unfold runs at made
  simp only [Option.bind_eq_bind, Option.bind_eq_some_iff, toOption_eq_some_iff, Option.pure_def,
    Option.some.injEq] at made
  obtain ⟨⟨ready, first⟩, prepared, written, worked, ⟨start, second⟩, prepared', same⟩ := made
  cases same
  exact ⟨prepared, worked, prepared'⟩

theorem comparable (shown : Shown r) :
    Comparable configuration solc r.ready (compileFiles project configuration solc files).tree edited r.first r.second
      r.written where
  named := by
    rw [shown.planned]
    exact ⟨by decide +kernel, by decide +kernel⟩
  identifiers := namesIdentifiers
  noLinks := shown.noLinks
  kept := by
    rw [shown.planned]
    intro unit mem
    have elsewhere : (["p", "build", Artifact.moduleName unit.primary] : Location) ≠ ["p", "contracts", "A.sol"] := by simp
    refine FileTree.readText_congr (shown.leads' unit mem) (shown.leads unit mem) ?_
    rw [edited, FileTree.node?_setNode _ (by decide), if_neg elsewhere]
  noCollision := by
    have apart : (texts.map Digest.Sha256.hexDigest).Nodup := by decide +kernel
    exact fun before mem now mem' same =>
      List.inj_on_of_nodup_map apart (shown.loaded before mem) (shown.loaded' now mem') same

theorem eq_changed {unit : CompilationUnit} (mem : unit ∈ units) (isEdits : unit.primary = edits) : unit = changed := by
  have apart : (units.map (·.primary)).Nodup := by decide
  exact List.inj_on_of_nodup_map apart mem (by simp [units]) isEdits

/-- The contents of the unchanged unit are the same in both runs. -/
theorem Shown.exists_contents (made : runs = some r) (shown : Shown r) : ∃ contents,
    r.first.workspace.store.contents unchanged.files = .ok contents ∧
      r.second.workspace.store.contents unchanged.files = .ok contents := by
  obtain ⟨contents, found⟩ := contents_of_mem (prepare_eq_ok_iff.mp (prepared_of_runs made).1).2
    (by simp [shown.planned, units] : unchanged ∈ r.first.units)
  exact ⟨contents, found, ok_of_same_entries found shown.same⟩

/-- The second run finds one of the units out of date. -/
theorem select_second (made : runs = some r) (shown : Shown r) : r.second.select true = [changed] := by
  obtain ⟨prepared, worked, prepared'⟩ := prepared_of_runs made
  obtain ⟨report, ran⟩ := exists_report prepared worked shown.writes
  have planned := (prepare_eq_ok_iff.mp prepared).2
  have planned' := (prepare_eq_ok_iff.mp prepared').2
  have valid_iff {unit : CompilationUnit} (mem : unit ∈ units) :
      isValid r.start configuration solc.release r.second.workspace.store unit = true ↔
        (r.first.workspace.store.contents unit.files).toOption.map (·.entries) =
          (r.second.workspace.store.contents unit.files).toOption.map (·.entries) := by
    have inFirst : unit ∈ r.first.units := shown.planned ▸ mem
    have inSecond : unit ∈ r.second.units := shown.planned' ▸ mem
    obtain ⟨contents, found⟩ := contents_of_mem planned inFirst
    obtain ⟨contents', found'⟩ := contents_of_mem planned' inSecond
    rw [← primary_mem_skipped_iff planned' inSecond, mem_skipped_iff_unchanged ran prepared worked prepared'
      (comparable shown) inFirst inSecond rfl found found', found, found']
    exact ⟨fun both => by rw [both.2], fun same => ⟨rfl, Dict.eq_of_entries (Option.some.inj same)⟩⟩
  have outdated := mt (valid_iff (by simp [units])).mp shown.differ
  have valid := (valid_iff (by simp [units])).mpr shown.same
  rw [select_eq planned', shown.planned', units]
  simp [outdated, valid]

theorem exists_report_second (made : runs = some r) (shown : Shown r) :
    ∃ report, (compileFiles edited configuration solc files).result = .ok report := by
  obtain ⟨_, _, prepared'⟩ := prepared_of_runs made
  obtain ⟨written, worked, writes⟩ := (Option.any_eq_true _ _).mp shown.writes'
  have only : (alone r).select true = [changed] := rfl
  have same : toWrite configuration solc r.second = toWrite configuration solc (alone r) :=
    toWrite_congr rfl ((select_second made shown).trans only.symm)
  exact exists_report prepared' (same.trans (toOption_eq_some_iff.mp worked)) (of_decide_eq_true writes)

end Halves

/-- Two files import a third one. After one of the two has been edited, it is compiled again and the other one is
skipped. -/
theorem skipped_iff_unchanged_edited :
    ∃ report, (compileFiles Halves.edited Halves.configuration Halves.solc Halves.files).result = .ok report ∧
      report.compiled = [Halves.edits] ∧ report.skipped = [Halves.stays] ∧ report.invocations ≠ 0 := by
  obtain ⟨r, made, shown⟩ := Halves.exists_runs
  obtain ⟨prepared, worked, prepared'⟩ := Halves.prepared_of_runs made
  obtain ⟨_, ran⟩ := exists_report prepared worked shown.writes
  obtain ⟨report, ran'⟩ := Halves.exists_report_second made shown
  obtain ⟨skipped_iff, skipped, compiled, idle_iff, _⟩ := skipped_iff_unchanged ran prepared worked ran' prepared'
    shown.selected shown.selected' (Halves.comparable shown)
  have edited : Halves.edits ∉ report.skipped := by
    intro mem
    obtain ⟨_, before, inFirst, now, inSecond, isEdits, isEdits', contents, found, found'⟩ := (skipped_iff _).mp mem
    rw [shown.planned] at inFirst
    rw [shown.planned'] at inSecond
    obtain rfl := Halves.eq_changed inFirst isEdits
    obtain rfl := Halves.eq_changed inSecond isEdits'
    exact shown.differ (by rw [found, found'])
  have kept : Halves.stays ∈ report.skipped := by
    obtain ⟨contents, found, found'⟩ := shown.exists_contents made
    refine (skipped_iff _).mpr ⟨rfl, Halves.unchanged, ?_, Halves.unchanged, ?_, rfl, rfl, contents, found, found'⟩
    · simp [shown.planned, Halves.units]
    · simp [shown.planned', Halves.units]
  refine ⟨report, ran', ?_, ?_, fun asksNone => edited (idle_iff.mp asksNone _ (by simp [Halves.files]))⟩
  · rw [compiled, Halves.files]
    simp [edited, kept]
  · rw [skipped, Halves.files]
    simp [edited, kept]

end SolidityBuild.Build
