import SolidityBuild.Proofs.IncrementalBuild
import SolidityBuild.Proofs.UndisturbedBuild

/-!
# Flattened sources of skipped units

A unit is skipped when its files have the contents that the last run recorded. The flattened source that stays
then also shows the order in which the imports lead to the files, and this is recorded nowhere: it is the right
one if the last run compiled the unit with its files in the same order (`flattened_eq_iff`), or if the right one
was there before.
-/

namespace SolidityBuild

namespace Artifact

open SolidityBuild.Path (IsName)

/-! ## Names of flattened sources -/

/-- The name of the flattened source of a file. -/
def flattenedName (file : Path) : String := stem file ++ "_all.sol"

theorem flattenedName_inj {file other : Path} (same : flattenedName file = flattenedName other) :
    stem file = stem other := by
  have chars := congrArg String.toList same
  simp only [flattenedName, String.toList_append, List.append_cancel_right_eq] at chars
  exact String.toList_inj.mp chars

theorem getLast?_flattenedName (file : Path) : (flattenedName file).toList.getLast? = some 'l' := by
  have ending : "_all.sol".toList ≠ [] := by decide
  rw [flattenedName, String.toList_append, List.getLast?_append_of_ne_nil _ ending]
  decide

theorem isName_flattenedName (file : Path) : IsName (flattenedName file) :=
  Path.isName_of_getLast? (getLast?_flattenedName file) (by decide)

theorem getLast?_flattenedPath (config : Configuration) {file : Path} (plain : '/' ∉ (stem file).toList) :
    (flattenedPath config file).segments.getLast? = some (flattenedName file) := by
  refine Path.getLast?_child_of_plain _ ?_
  simp only [String.toList_append, List.mem_append, not_or]
  exact ⟨plain, by decide⟩

/-- A path whose last name ends otherwise than that of a flattened source. -/
def EndsOtherwise (p : Path) : Prop :=
  ∃ name last, p.segments.getLast? = some name ∧ name.toList.getLast? = some last ∧ last ≠ 'l'

theorem EndsOtherwise.ne_flattened {p : Path} (other : EndsOtherwise p) (file : Path) :
    p.segments.getLast? ≠ some (flattenedName file) := by
  obtain ⟨name, last, ends, letter, differs⟩ := other
  intro same
  rw [ends] at same
  rw [Option.some.inj same, getLast?_flattenedName] at letter
  exact differs (Option.some.inj letter).symm

theorem endsOtherwise_child (p : Path) (front ending : String) (last : Char) (plain : '/' ∉ ending.toList)
    (letter : ending.toList.getLast? = some last) (differs : last ≠ 'l') : EndsOtherwise (p.child (front ++ ending)) := by
  obtain ⟨name, ends, letter⟩ := exists_last_child p front ending last plain letter
  exact ⟨name, last, ends, letter, differs⟩

theorem endsOtherwise_document (p : Path) (front : String) : EndsOtherwise (p.child (front ++ ".json")) :=
  endsOtherwise_child p front ".json" 'n' (by decide) (by decide) (by decide)

theorem endsOtherwise_module (config : Configuration) (file : Path) : EndsOtherwise (modulePath config file) :=
  endsOtherwise_child _ (stem file) ".sol.js" 's' (by decide) (by decide) (by decide)

variable {config : Configuration} {c : Compilation} {units : List CompilationUnit}

theorem endsOtherwise_of_mem_snapshot {file : OutputFile} (mem : file ∈ snapshot config c) : EndsOtherwise file.path := by
  have request : "solcStandardInput.json" = "solcStandardInput" ++ ".json" := by decide
  have answer : "solcStandardOutput.json" = "solcStandardOutput" ++ ".json" := by decide
  simp only [snapshot, request, answer, List.mem_cons, List.not_mem_nil, or_false] at mem
  rcases mem with rfl | rfl
  · dsimp only
    exact endsOtherwise_document _ _
  · dsimp only
    exact endsOtherwise_document _ _

/-- Every file of a batch is the flattened source of a unit or has another name. -/
theorem flattened_or_other_of_rendered {rendered : List (List OutputFile)}
    (outputs : units.mapM (unitOutputs config c) = .ok rendered) {file : OutputFile}
    (mem : file ∈ snapshot config c ++ rendered.flatten) :
    (∃ unit ∈ units, file.path = flattenedPath config unit.primary ∧ flattened c.store unit = .ok file.contents) ∨
      EndsOtherwise file.path := by
  rcases List.mem_append.mp mem with inSnapshot | inUnit
  · exact .inr (endsOtherwise_of_mem_snapshot inSnapshot)
  · obtain ⟨files, listed, inFiles⟩ := List.mem_flatten.mp inUnit
    obtain ⟨unit, unitMem, renderedUnit⟩ := mem_of_mem_of_mapM outputs listed
    obtain ⟨text, _, renderedUnit⟩ := bind_eq_ok_iff.mp renderedUnit
    obtain ⟨flat, flattens, renderedUnit⟩ := bind_eq_ok_iff.mp renderedUnit
    obtain ⟨documents, _, renderedUnit⟩ := bind_eq_ok_iff.mp renderedUnit
    cases renderedUnit
    simp only [List.mem_cons, List.mem_map] at inFiles
    rcases inFiles with rfl | rfl | ⟨⟨contract, document⟩, _, rfl⟩
    · right
      dsimp only
      exact endsOtherwise_module config unit.primary
    · left
      dsimp only
      exact ⟨unit, unitMem, rfl, flattens⟩
    · right
      dsimp only
      exact endsOtherwise_document _ contract

theorem exists_flattened_of_unit {unit : CompilationUnit} {files : List OutputFile}
    (rendered : unitOutputs config c unit = .ok files) :
    ∃ file ∈ files, file.path = flattenedPath config unit.primary ∧ flattened c.store unit = .ok file.contents := by
  obtain ⟨_, _, rendered⟩ := bind_eq_ok_iff.mp rendered
  obtain ⟨text, flattens, rendered⟩ := bind_eq_ok_iff.mp rendered
  obtain ⟨_, _, rendered⟩ := bind_eq_ok_iff.mp rendered
  cases rendered
  refine ⟨⟨flattenedPath config unit.primary, text⟩, List.mem_cons_of_mem _ List.mem_cons_self, ?_, ?_⟩
  · dsimp only
  · exact flattens

/-- The flattened source of a unit is the only file of a batch with its name. -/
theorem exists_flattened {files : List OutputFile} (written : outputs config c units = .ok files)
    (named : WellNamed units) {unit : CompilationUnit} (mem : unit ∈ units) :
    ∃ file ∈ files, file.path = flattenedPath config unit.primary ∧ flattened c.store unit = .ok file.contents ∧
      ∀ other ∈ files, other.path.segments.getLast? = some (flattenedName unit.primary) → other = file := by
  obtain ⟨rendered, each, whole⟩ := bind_eq_ok_iff.mp written
  cases whole
  obtain ⟨unitFiles, listed, renderedUnit⟩ := ok_of_mem_of_mapM each mem
  obtain ⟨file, inUnit, path, flattens⟩ := exists_flattened_of_unit renderedUnit
  have inFiles : file ∈ snapshot config c ++ rendered.flatten :=
    List.mem_append_right _ (List.mem_flatten.mpr ⟨unitFiles, listed, inUnit⟩)
  have ends : file.path.segments.getLast? = some (flattenedName unit.primary) := by
    rw [path]
    exact getLast?_flattenedPath config (named.plain unit mem)
  have only : ∀ other ∈ snapshot config c ++ rendered.flatten,
      other.path.segments.getLast? = some (flattenedName unit.primary) → other = file := by
    intro other inFiles name
    rcases flattened_or_other_of_rendered each inFiles with ⟨owner, ownerMem, path', flattens'⟩ | other
    · rw [path', getLast?_flattenedPath config (named.plain owner ownerMem)] at name
      obtain rfl := named.eq ownerMem mem (flattenedName_inj (Option.some.inj name))
      rw [flattens] at flattens'
      obtain ⟨place, contents⟩ := other
      obtain ⟨place', contents'⟩ := file
      rw [OutputFile.mk.injEq]
      exact ⟨path'.trans path.symm, (Except.ok.inj flattens').symm⟩
    · exact absurd name (other.ne_flattened unit.primary)
  obtain ⟨written, alone⟩ :=
    mem_foldl_put_of_named inFiles ends (isName_flattenedName _) (fun _ => named.isName_of_rendered each) only
  exact ⟨file, written, path, flattens, alone⟩

theorem exists_unit_of_flattenedName {files : List OutputFile} (written : outputs config c units = .ok files)
    (named : WellNamed units) {file : OutputFile} (mem : file ∈ files) {p : Path}
    (name : file.path.segments.getLast? = some (flattenedName p)) : ∃ unit ∈ units, stem unit.primary = stem p := by
  obtain ⟨rendered, each, whole⟩ := bind_eq_ok_iff.mp written
  cases whole
  obtain ⟨given, listed, path⟩ := path_of_mem_foldl_put [] mem
  rw [← path] at name
  rcases flattened_or_other_of_rendered each (by simpa using listed) with ⟨owner, ownerMem, isFlattened, _⟩ | other
  · rw [isFlattened, getLast?_flattenedPath config (named.plain owner ownerMem)] at name
    exact ⟨owner, ownerMem, flattenedName_inj (Option.some.inj name)⟩
  · exact absurd name (other.ne_flattened p)

/-! ## The order of the files -/

/-- A file as it stands in a flattened source, by its key and its content. -/
def part (key content : String) : String := "\n\n" ++ fileMarker ++ key ++ "\n" ++ Source.Import.stripped content

/-- Sources in which every file is introduced by one line with its key show the order of the keys. -/
theorem keys_eq_of_join (content : String → String) {keys keys' : List String}
    (lines : ∀ key ∈ keys, '\n' ∉ key.toList) (lines' : ∀ key ∈ keys', '\n' ∉ key.toList)
    (same : String.join (keys.map fun key => part key (content key)) =
      String.join (keys'.map fun key => part key (content key))) : keys = keys' := by
  have start (key : String) (rest : List Char) : (part key (content key)).toList ++ rest =
      ("\n\n" ++ fileMarker).toList ++ (key.toList ++ '\n' :: ((Source.Import.stripped (content key)).toList ++ rest)) := by
    simp [part, String.toList_append]
  have visible (key : String) (rest : List Char) : (part key (content key)).toList ++ rest ≠ [] := by
    rw [start]
    simp [String.toList_append]
  have chars := congrArg String.toList same
  rw [String.toList_join, String.toList_join, List.flatMap_map, List.flatMap_map] at chars
  clear same
  induction keys generalizing keys' with
  | nil =>
    cases keys' with
    | nil => rfl
    | cons key rest => exact absurd chars.symm (visible key _)
  | cons key rest ih =>
    cases keys' with
    | nil => exact absurd chars (visible key _)
    | cons key' rest' =>
      rw [List.flatMap_cons, List.flatMap_cons, start, start, List.append_cancel_left_eq] at chars
      obtain ⟨line, behind⟩ := Text.eq_of_append_cons (lines key (by simp)) (lines' key' (by simp)) chars
      obtain rfl := String.toList_inj.mp line
      rw [List.append_cancel_left_eq] at behind
      rw [ih (fun k mem => lines k (List.mem_cons_of_mem _ mem)) (fun k mem => lines' k (List.mem_cons_of_mem _ mem))
        behind]

/-- The keys of some files tell them apart, and each of them fits in a line. -/
structure PlainKeys (base : Path) (files : List Path) : Prop where
  distinct : (files.map (·.key base)).Nodup
  lines : ∀ file ∈ files, '\n' ∉ (file.key base).toList

theorem plainKeys_iff {base : Path} {files : List Path} :
    PlainKeys base files ↔ (files.map (·.key base)).Nodup ∧ ∀ file ∈ files, '\n' ∉ (file.key base).toList :=
  ⟨fun plain => ⟨plain.distinct, plain.lines⟩, fun both => ⟨both.1, both.2⟩⟩

instance (base : Path) (files : List Path) : Decidable (PlainKeys base files) := decidable_of_iff _ plainKeys_iff.symm

theorem exists_entries {store : SourceStore} {files : List Path} {contents : Dict String}
    (found : store.contents files = .ok contents) :
    ∃ entries, entries.map (·.1) = files.map (·.key store.base) ∧ Dict.ofList entries = contents ∧
      files.mapM (segment store) = .ok (entries.map fun entry => part entry.1 entry.2) := by
  obtain ⟨entries, listed, whole⟩ := bind_eq_ok_iff.mp found
  refine ⟨entries, ?_, Except.ok.inj whole, ?_⟩
  · clear found
    have related := mapM_eq_ok_iff.mp listed
    clear listed whole
    induction related with
    | nil => rfl
    | cons here _ ih =>
      obtain ⟨unit, _, same⟩ := bind_eq_ok_iff.mp here
      cases same
      rw [List.map_cons, List.map_cons, ih]
  · rw [mapM_eq_ok_iff, List.forall₂_map_right_iff]
    refine (mapM_eq_ok_iff.mp listed).imp fun file entry here => ?_
    obtain ⟨unit, stored, same⟩ := bind_eq_ok_iff.mp here
    cases same
    exact bind_eq_ok_iff.mpr ⟨unit, stored, rfl⟩

/-- A flattened source is made up of the contents by key, in the order of the keys. -/
theorem flattened_eq_join {store : SourceStore} {unit : CompilationUnit} {contents : Dict String}
    (found : store.contents unit.files = .ok contents) (distinct : (unit.files.map (·.key store.base)).Nodup) :
    flattened store unit = .ok (String.join ((unit.files.map (·.key store.base)).map fun key =>
      part key ((contents.get? key).getD ""))) := by
  obtain ⟨entries, keys, whole, segments⟩ := exists_entries found
  have each : ∀ entry ∈ entries, (contents.get? entry.1).getD "" = entry.2 := by
    intro entry mem
    rw [← whole, (Dict.get?_ofList_of_nodup (keys ▸ distinct)).mpr mem, Option.getD_some]
  refine bind_eq_ok_iff.mpr ⟨_, segments, ?_⟩
  rw [← keys, List.map_map]
  have parts : entries.map (fun entry => part entry.1 entry.2) =
      entries.map ((fun key => part key ((contents.get? key).getD "")) ∘ (·.1)) := by
    refine List.map_congr_left fun entry mem => ?_
    rw [Function.comp_apply, each entry mem]
  rw [parts]
  rfl

/-- With the same contents two flattened sources are the same just if they have the files in the same order. -/
theorem flattened_eq_iff {store store' : SourceStore} {unit unit' : CompilationUnit} {contents : Dict String}
    {base : Path} (ofBase : store.base = base) (ofBase' : store'.base = base)
    (found : store.contents unit.files = .ok contents) (found' : store'.contents unit'.files = .ok contents)
    (plain : PlainKeys base unit.files) (plain' : PlainKeys base unit'.files) :
    flattened store unit = flattened store' unit' ↔ unit.files.map (·.key base) = unit'.files.map (·.key base) := by
  subst ofBase
  rw [flattened_eq_join found plain.distinct, flattened_eq_join found' (ofBase' ▸ plain'.distinct), ofBase']
  constructor
  · intro same
    exact keys_eq_of_join (fun key => (contents.get? key).getD "") (List.forall_mem_map.mpr plain.lines)
      (List.forall_mem_map.mpr plain'.lines) (Except.ok.inj same)
  · intro same
    rw [same]

end Artifact

namespace Build

open Artifact (Wrote WellNamed OutputFile PlainKeys flattened flattenedPath flattenedName modulePath)
open FileTree (Keeps)

/-! ## Flattened sources after a run -/

/-- The flattened source of a unit is at its place. -/
def HasFlattened (tree : FileTree) (config : Configuration) (store : SourceStore) (unit : CompilationUnit) : Prop :=
  ∃ text, flattened store unit = .ok text ∧ tree.readText (flattenedPath config unit.primary) = .ok text

section

variable {ready after : FileTree} {config : Configuration} {toolchain : Toolchain} {plan : Plan}
  {written : List OutputFile} {unit : CompilationUnit}

theorem flattenedName_of_location (noLinks : NoLinks ready config plan written) (named : WellNamed plan.units)
    (worked : toWrite config toolchain plan = .ok written) {file : OutputFile} (mem : file ∈ written)
    (unitMem : unit ∈ plan.units) (notLink : ready.isLink (flattenedPath config unit.primary) = false)
    {location : Location} (leads : ready.location? (flattenedPath config unit.primary) = some location)
    (there : ready.location? file.path = some location) :
    file.path.segments.getLast? = some (flattenedName unit.primary) :=
  name_of_location noLinks named worked mem (Artifact.getLast?_flattenedPath config (named.plain unit unitMem))
    (Artifact.isName_flattenedName _) notLink leads there

theorem hasFlattened_of_compiled (noLinks : NoLinks ready config plan written) (named : WellNamed plan.units)
    (worked : toWrite config toolchain plan = .ok written) (wrote : Wrote ready written after)
    (mem : unit ∈ plan.select true) (notLink : ready.isLink (flattenedPath config unit.primary) = false) :
    HasFlattened after config plan.workspace.store unit := by
  have unitMem := (select_sublist plan true).subset mem
  obtain ⟨request, names, result, _, outputs⟩ := outputs_of_toWrite worked (List.ne_nil_of_mem mem)
  obtain ⟨file, listed, path, flattens, only⟩ :=
    Artifact.exists_flattened outputs (named.sublist (select_sublist plan true)) mem
  have alone : ∀ other ∈ written, ∀ location, ready.location? file.path = some location →
      ready.location? other.path = some location → other.contents = file.contents := by
    intro other mem' location leads there
    rw [path] at leads
    rw [only other mem' (flattenedName_of_location noLinks named worked mem' unitMem notLink leads there)]
  have read := wrote.readText_of_mem listed alone
  rw [path] at read
  dsimp only at flattens
  exact ⟨file.contents, flattens, read⟩

theorem readText_flattened_of_skipped (noLinks : NoLinks ready config plan written) (named : WellNamed plan.units)
    (worked : toWrite config toolchain plan = .ok written) (wrote : Wrote ready written after)
    (mem : unit ∈ plan.units) (skipped : unit ∉ plan.select true)
    (notLink : ready.isLink (flattenedPath config unit.primary) = false) {text : String} :
    after.readText (flattenedPath config unit.primary) = .ok text ↔
      ready.readText (flattenedPath config unit.primary) = .ok text := by
  refine wrote.readText_of_elsewhere fun file mem' location leads there => skipped ?_
  have name := flattenedName_of_location noLinks named worked mem' mem notLink leads there
  obtain ⟨request, names, result, _, outputs⟩ := outputs_of_toWrite worked (exists_stale_of_mem worked mem')
  obtain ⟨owner, ownerMem, stem⟩ :=
    Artifact.exists_unit_of_flattenedName outputs (named.sublist (select_sublist plan true)) mem' name
  rw [← named.eq ((select_sublist plan true).subset ownerMem) mem stem]
  exact ownerMem

end

/-! ## Two runs -/

/-- What is assumed about the flattened sources in two runs: no link leads to one or away from one, and none is
edited before the second run makes its plan. -/
structure SparesFlattened (config : Configuration) (ready after start : FileTree) (first second : Plan)
    (written : List OutputFile) : Prop where
  named : WellNamed second.units
  noLinks : NoLinks start config second written
  notLinks : ∀ unit ∈ first.units, ready.isLink (flattenedPath config unit.primary) = false
  notLinksNow : ∀ unit ∈ second.units, start.isLink (flattenedPath config unit.primary) = false
  kept : ∀ unit ∈ first.units,
    start.readText (flattenedPath config unit.primary) = after.readText (flattenedPath config unit.primary)

theorem mem_compiled_iff {plan : Plan} {tree : FileTree} {config : Configuration} {release : String} {files : List Path}
    (planned : Build.plan tree config release files = .ok plan) {unit : CompilationUnit} (mem : unit ∈ plan.units) :
    unit.primary ∈ (plan.select true).map (·.primary) ↔ unit ∈ plan.select true := by
  refine ⟨fun listed => ?_, List.mem_map_of_mem⟩
  obtain ⟨other, stale, same⟩ := List.mem_map.mp listed
  rwa [← List.inj_on_of_nodup_map (nodup_primaries planned) ((select_sublist plan true).subset stale) mem same]

section

variable {config : Configuration} {old new : Toolchain} {tree ready edited start : FileTree} {files files' : List Path}
  {first second : Plan} {written written' : List OutputFile}

/-- The flattened source of a unit that the second of two runs skips is the right one just if its files are in the
order in which the first run compiled them, or if the first run skipped it, too, and the right one was there. -/
theorem hasFlattened_iff_of_skipped {report report' : BuildReport} {p : Path}
    (ran : (compileFiles tree config old files).result = .ok report)
    (prepared : prepare tree config old.release files = .ok (ready, first))
    (worked : toWrite config old first = .ok written)
    (ran' : (compileFiles edited config new files').result = .ok report')
    (prepared' : prepare edited config new.release files' = .ok (start, second))
    (worked' : toWrite config new second = .ok written')
    (comparable : Comparable config old ready (compileFiles tree config old files).tree edited first second written)
    (spares : SparesFlattened config ready (compileFiles tree config old files).tree start first second written')
    (skipped : p ∈ report'.skipped) {before now : CompilationUnit} (mem : before ∈ first.units)
    (mem' : now ∈ second.units) (ofBefore : before.primary = p) (ofNow : now.primary = p)
    (plain : PlainKeys config.baseDirectory before.files) (plain' : PlainKeys config.baseDirectory now.files) :
    HasFlattened (compileFiles edited config new files').tree config second.workspace.store now ↔
      if p ∈ report.compiled then
        before.files.map (·.key config.baseDirectory) = now.files.map (·.key config.baseDirectory)
      else HasFlattened ready config second.workspace.store now := by
  obtain ⟨wrote, compiled, _⟩ := done_of_run ran prepared worked
  obtain ⟨wrote', _, skipped'⟩ := done_of_run ran' prepared' worked'
  obtain ⟨_, planned⟩ := prepare_eq_ok_iff.mp prepared
  obtain ⟨_, planned'⟩ := prepare_eq_ok_iff.mp prepared'
  rw [skipped', ← ofNow] at skipped
  -- The second run found the contents that the first one recorded.
  obtain ⟨contents, found⟩ := contents_of_mem planned mem
  obtain ⟨contents', found'⟩ := contents_of_mem planned' mem'
  obtain ⟨_, rfl⟩ := (mem_skipped_iff_unchanged ran prepared worked prepared' comparable mem mem'
    (ofNow.trans ofBefore.symm) found found').mp skipped
  -- So what the first run left is still there.
  have notStale : now ∉ second.select true := by
    simp [mem_select_iff prepared', (primary_mem_skipped_iff planned' mem').mp skipped]
  have stays {text : String} : (compileFiles edited config new files').tree.readText (flattenedPath config now.primary) =
      .ok text ↔ (compileFiles tree config old files).tree.readText (flattenedPath config before.primary) = .ok text := by
    rw [readText_flattened_of_skipped spares.noLinks spares.named worked' wrote' mem' notStale
      (spares.notLinksNow now mem'), ofNow, ← ofBefore, spares.kept before mem]
  have stale_iff : p ∈ report.compiled ↔ before ∈ first.select true := by
    rw [compiled, ← ofBefore, mem_compiled_iff planned mem]
  unfold HasFlattened
  simp only [stays]
  by_cases stale : before ∈ first.select true
  · obtain ⟨text, flattens, read⟩ := hasFlattened_of_compiled comparable.noLinks comparable.named worked wrote stale
      (spares.notLinks before mem)
    rw [if_pos (stale_iff.mpr stale)]
    rw [← Artifact.flattened_eq_iff (base_of_plan planned) (base_of_plan planned') found found' plain plain', flattens,
      read]
    simp [eq_comm]
  · rw [if_neg fun inside => stale (stale_iff.mp inside)]
    simp only [readText_flattened_of_skipped comparable.noLinks comparable.named worked wrote mem stale
      (spares.notLinks before mem)]
    rw [ofBefore, ofNow]

end

/-! ## Links that change places -/

namespace Relinked

def primary : Path := .ofText "/p/contracts/A.sol"

/-- A project with two imports that are links. -/
def project : FileTree :=
  ⟨[(["p"], .directory), (["p", "contracts"], .directory), (["p", "parts"], .directory),
    (["p", "contracts", "A.sol"], .file (.text "import \"./X.sol\";\nimport \"./Y.sol\";\n")),
    (["p", "contracts", "X.sol"], .link (.ofText "/p/parts/U.sol")),
    (["p", "contracts", "Y.sol"], .link (.ofText "/p/parts/V.sol")),
    (["p", "parts", "U.sol"], .file (.text "contract U {}\n")),
    (["p", "parts", "V.sol"], .file (.text "contract V {}\n"))], [], by decide⟩

def configuration : Configuration := .withBase project (.ofText "/p")

theorem runs : (compileFiles project configuration Sample.solc [primary]).result.toOption.isSome = true := by
  decide +kernel

@[irreducible] def first : FileTree × Plan :=
  (prepare project configuration Sample.solc.release [primary]).toOption.get (isSome_prepare runs)

theorem prepared : prepare project configuration Sample.solc.release [primary] = .ok (first.1, first.2) :=
  eq_ok_pair (by rw [first])

@[irreducible] def written : List OutputFile :=
  (toWrite configuration Sample.solc first.2).toOption.get (isSome_toWrite runs prepared)

theorem worked : toWrite configuration Sample.solc first.2 = .ok written := by
  rw [eq_ok_of_isSome (isSome_toWrite runs prepared), written]

/-- The links lead to each other's files after the first run. -/
@[irreducible] def relinked : FileTree :=
  ((compileFiles project configuration Sample.solc [primary]).tree.setNode ["p", "contracts", "X.sol"]
    (.link (.ofText "/p/parts/V.sol"))).setNode ["p", "contracts", "Y.sol"] (.link (.ofText "/p/parts/U.sol"))

theorem preparesNow : (prepare relinked configuration Sample.solc.release [primary]).toOption.isSome = true := by
  decide +kernel

@[irreducible] def second : FileTree × Plan :=
  (prepare relinked configuration Sample.solc.release [primary]).toOption.get preparesNow

theorem preparedNow : prepare relinked configuration Sample.solc.release [primary] = .ok (second.1, second.2) :=
  eq_ok_pair (by rw [second])

def before : CompilationUnit := ⟨primary, [.ofText "/p/parts/U.sol", .ofText "/p/parts/V.sol"]⟩

def now : CompilationUnit := ⟨primary, [.ofText "/p/parts/V.sol", .ofText "/p/parts/U.sol"]⟩

/-- What both runs load, which are texts with different hashes. -/
def texts : List String := ["import \"./X.sol\";\nimport \"./Y.sol\";\n", "contract U {}\n", "contract V {}\n"]

/-- The place of the module. -/
def place : Location := ["p", "build", "A.sol.js"]

-- Each evaluation of a run hashes the files anew, so whatever takes one is evaluated together.
theorem evaluated :
    ((compileFiles project configuration Sample.solc [primary]).result.toOption.get runs).compiled = [primary] ∧
      (first.2.units = [before] ∧ second.2.units = [now]) ∧
      ((∀ unit ∈ first.2.workspace.store.units, unit.content ∈ texts) ∧
        ∀ unit ∈ second.2.workspace.store.units, unit.content ∈ texts) ∧
      (first.2.workspace.store.contents before.files).toOption.map Dict.toList =
        (second.2.workspace.store.contents now.files).toOption.map Dict.toList ∧
      (NoLinks first.1 configuration first.2 written ∧ NoLinks second.1 configuration second.2 []) ∧
      ((∀ unit ∈ first.2.units, first.1.isLink (flattenedPath configuration unit.primary) = false) ∧
        ∀ unit ∈ second.2.units, second.1.isLink (flattenedPath configuration unit.primary) = false) ∧
      (relinked.locate (modulePath configuration primary) = .ok place ∧
        (compileFiles project configuration Sample.solc [primary]).tree.locate (modulePath configuration primary) =
          .ok place) ∧
      second.1.readText (flattenedPath configuration primary) =
        (compileFiles project configuration Sample.solc [primary]).tree.readText
          (flattenedPath configuration primary) := by
  decide +kernel

theorem compiles :
    primary ∈ ((compileFiles project configuration Sample.solc [primary]).result.toOption.get runs).compiled := by
  rw [evaluated.1]
  exact List.mem_singleton_self _

theorem units : first.2.units = [before] := evaluated.2.1.1

theorem unitsNow : second.2.units = [now] := evaluated.2.1.2

theorem listed : before ∈ first.2.units := by simp [units]

theorem listedNow : now ∈ second.2.units := by simp [unitsNow]

theorem named : (WellNamed [before] ∧ WellNamed [now]) ∧
    PlainKeys configuration.baseDirectory before.files ∧ PlainKeys configuration.baseDirectory now.files ∧
      before.files.map (·.key configuration.baseDirectory) ≠ now.files.map (·.key configuration.baseDirectory) := by
  decide +kernel

theorem noCollision : ∀ before ∈ first.2.workspace.store.units, ∀ now ∈ second.2.workspace.store.units,
    before.hash = now.hash → before.content = now.content := by
  have apart : (texts.map Digest.Sha256.hexDigest).Nodup := by decide +kernel
  obtain ⟨_, _, ⟨loaded, loadedNow⟩, _⟩ := evaluated
  exact fun before mem now mem' same => List.inj_on_of_nodup_map apart (loaded before mem) (loadedNow now mem') same

theorem comparable :
    Comparable configuration Sample.solc first.1 (compileFiles project configuration Sample.solc [primary]).tree relinked
      first.2 second.2 written where
  named := units ▸ named.1.1
  identifiers := Sample.namesIdentifiers_solc
  noLinks := evaluated.2.2.2.2.1.1
  kept := by
    obtain ⟨_, _, _, _, _, _, ⟨leads, leads'⟩, _⟩ := evaluated
    have same : relinked.node? place = (compileFiles project configuration Sample.solc [primary]).tree.node? place := by
      unfold relinked
      rw [FileTree.node?_setNode _ (by decide), if_neg (by decide), FileTree.node?_setNode _ (by decide),
        if_neg (by decide)]
    simpa [units, before] using FileTree.readText_congr leads leads' same
  noCollision := noCollision

theorem contents : ∃ contents, first.2.workspace.store.contents before.files = .ok contents ∧
    second.2.workspace.store.contents now.files = .ok contents := by
  obtain ⟨contents, found⟩ := contents_of_mem (prepare_eq_ok_iff.mp prepared).2 listed
  obtain ⟨_, _, _, same, _⟩ := evaluated
  exact ⟨contents, found, ok_of_same_entries found same⟩

theorem idle : second.2.select true = [] := by
  obtain ⟨contents, found, found'⟩ := contents
  have skipped : now.primary ∈ second.2.skipped :=
    (mem_skipped_iff_unchanged (eq_ok_of_isSome runs) prepared worked preparedNow comparable listed listedNow rfl found
      found').mpr ⟨rfl, rfl⟩
  rw [select_eq_nil_iff (prepare_eq_ok_iff.mp preparedNow).2, unitsNow]
  simpa using skipped

theorem workedNow : toWrite configuration Sample.solc second.2 = .ok [] := by
  unfold toWrite
  rw [second.2.batch_units, idle]
  rfl

theorem runsNow : compileFiles relinked configuration Sample.solc [primary] =
    ⟨.ok ⟨[], second.2.skipped, [], 0⟩, second.1, 0⟩ := by
  rw [compileFiles_of_prepare preparedNow, finish_of_idle idle]

theorem spares :
    SparesFlattened configuration first.1 (compileFiles project configuration Sample.solc [primary]).tree second.1
      first.2 second.2 [] := by
  obtain ⟨_, _, _, _, ⟨_, noLinks⟩, ⟨notLinks, notLinksNow⟩, _, kept⟩ := evaluated
  refine ⟨unitsNow ▸ named.1.2, noLinks, notLinks, notLinksNow, ?_⟩
  simpa [units, before] using kept

end Relinked

/-- The flattened source of the skipped unit is not the right one any more. -/
theorem not_hasFlattened_relinked :
    ∃ report, (compileFiles Relinked.relinked Relinked.configuration Sample.solc [Relinked.primary]).result = .ok report ∧
      Relinked.primary ∈ report.skipped ∧
      ¬HasFlattened (compileFiles Relinked.relinked Relinked.configuration Sample.solc [Relinked.primary]).tree
        Relinked.configuration Relinked.second.2.workspace.store Relinked.now := by
  have ran' : (compileFiles Relinked.relinked Relinked.configuration Sample.solc [Relinked.primary]).result =
      .ok ⟨[], Relinked.second.2.skipped, [], 0⟩ := by rw [Relinked.runsNow]
  have skipped : Relinked.primary ∈ Relinked.second.2.skipped :=
    (select_eq_nil_iff (prepare_eq_ok_iff.mp Relinked.preparedNow).2).mp Relinked.idle _ Relinked.listedNow
  have ofBefore : Relinked.before.primary = Relinked.primary := by rw [Relinked.before]
  have ofNow : Relinked.now.primary = Relinked.primary := by rw [Relinked.now]
  obtain ⟨_, plain, plainNow, reordered⟩ := Relinked.named
  have iff := hasFlattened_iff_of_skipped (eq_ok_of_isSome Relinked.runs) Relinked.prepared Relinked.worked ran'
    Relinked.preparedNow Relinked.workedNow Relinked.comparable Relinked.spares skipped Relinked.listed
    Relinked.listedNow ofBefore ofNow plain plainNow
  rw [if_pos Relinked.compiles] at iff
  exact ⟨_, ran', skipped, fun right => reordered (iff.mp right)⟩

end Build

end SolidityBuild
