import SolidityBuild.Artifact.Output
import SolidityBuild.Proofs.Resolution
import SolidityBuild.Proofs.Results
import Mathlib.Data.List.Nodup

/-!
# Names of output files

The last name of an output tells what it is: only modules end in `.js`, and a module is named after the
stem of its unit. So among the files of a batch whose stems differ the module of a unit is the only file
with its name (`exists_module`), whatever directories the outputs are in.
-/

namespace SolidityBuild.Artifact

open SolidityBuild.Path (IsName)

/-! ## Putting files together -/

theorem path_of_mem_put {files : List OutputFile} {file other : OutputFile} (mem : other ∈ put files file) :
    (∃ earlier ∈ files, earlier.path = other.path) ∨ other = file := by
  unfold put at mem
  split at mem
  · obtain ⟨present, listed, same⟩ := List.mem_map.mp mem
    refine .inl ⟨present, listed, ?_⟩
    split at same <;> rw [← same]
  · rcases List.mem_append.mp mem with listed | last
    · exact .inl ⟨other, listed, rfl⟩
    · exact .inr (List.mem_singleton.mp last)

/-- No file has the path of `file` but itself. -/
def Alone (file : OutputFile) (files : List OutputFile) : Prop :=
  ∀ other ∈ files, other.path.same file.path = true → other = file

theorem alone_put {file added : OutputFile} {files : List OutputFile} (alone : Alone file files)
    (unlike : added.path.same file.path = true → added = file) : Alone file (put files added) := by
  intro other mem same
  unfold put at mem
  split at mem
  · obtain ⟨present, listed, whole⟩ := List.mem_map.mp mem
    split at whole
    · next replaced =>
      have path : other.path = present.path := by rw [← whole]
      have isFile : present = file := alone present listed (path ▸ same)
      subst isFile
      rw [← whole, unlike (Path.same_symm replaced)]
    · rw [← whole] at same ⊢
      exact alone present listed same
  · rcases List.mem_append.mp mem with listed | last
    · exact alone other listed same
    · rw [List.mem_singleton.mp last] at same ⊢
      exact unlike same

theorem mem_put_of_mem {file added : OutputFile} {files : List OutputFile} (mem : file ∈ files)
    (unlike : added.path.same file.path = true → added = file) : file ∈ put files added := by
  unfold put
  split
  · refine List.mem_map.mpr ⟨file, mem, ?_⟩
    split
    · next replaced => rw [unlike (Path.same_symm replaced)]
    · rfl
  · exact List.mem_append_left _ mem

theorem mem_put_self {file : OutputFile} {files : List OutputFile} (alone : Alone file files) :
    file ∈ put files file := by
  unfold put
  split
  · next present =>
    obtain ⟨earlier, listed, same⟩ := List.any_eq_true.mp present
    have isFile := alone earlier listed same
    subst isFile
    exact List.mem_map.mpr ⟨earlier, listed, by simp [same]⟩
  · exact List.mem_append_right _ (by simp)

theorem path_of_mem_foldl_put {files : List OutputFile} {file : OutputFile} (start : List OutputFile)
    (mem : file ∈ files.foldl put start) :
    ∃ given ∈ start ++ files, given.path = file.path := by
  induction files generalizing start with
  | nil => exact ⟨file, by simpa using mem, rfl⟩
  | cons first rest ih =>
    obtain ⟨given, listed, path⟩ := ih (put start first) mem
    rcases List.mem_append.mp listed with inside | later
    · rcases path_of_mem_put inside with ⟨earlier, there, same⟩ | rfl
      · exact ⟨earlier, List.mem_append_left _ there, same.trans path⟩
      · exact ⟨given, by simp, path⟩
    · exact ⟨given, by simp [later], path⟩

theorem alone_foldl_put {file : OutputFile} {files : List OutputFile} (alone : Alone file files)
    {start : List OutputFile} (aloneStart : Alone file start) : Alone file (files.foldl put start) := by
  induction files generalizing start with
  | nil => exact aloneStart
  | cons first rest ih =>
    exact ih (fun other mem => alone other (List.mem_cons_of_mem _ mem))
      (alone_put aloneStart (alone first (by simp)))

/-- A file whose path no other file has is written as it is. -/
theorem mem_foldl_put {file : OutputFile} {files : List OutputFile} (alone : Alone file files)
    {start : List OutputFile} (aloneStart : Alone file start) (mem : file ∈ start ∨ file ∈ files) :
    file ∈ files.foldl put start := by
  induction files generalizing start with
  | nil => simpa using mem
  | cons first rest ih =>
    have unlike := alone first (by simp)
    refine ih (fun other later => alone other (List.mem_cons_of_mem _ later)) (alone_put aloneStart unlike) ?_
    rcases mem with before | mem
    · exact .inl (mem_put_of_mem before unlike)
    · rcases List.mem_cons.mp mem with rfl | later
      · exact .inl (mem_put_self aloneStart)
      · exact .inr later

/-- Of files that are put together the only one with its name is written as it is, and no other one has its name. -/
theorem mem_foldl_put_of_named {given : List OutputFile} {file : OutputFile} {name : String} (mem : file ∈ given)
    (ends : file.path.segments.getLast? = some name) (isName : IsName name)
    (named : ∀ other ∈ given, ∃ last, other.path.segments.getLast? = some last ∧ IsName last)
    (only : ∀ other ∈ given, other.path.segments.getLast? = some name → other = file) :
    file ∈ given.foldl put [] ∧
      ∀ other ∈ given.foldl put [], other.path.segments.getLast? = some name → other = file := by
  have alone : Alone file given := by
    intro other inFiles same
    apply only other inFiles
    obtain ⟨last, there, isLast⟩ := named other inFiles
    rw [there, Path.getLast?_eq_of_same same there isLast ends isName]
  have aloneStart : Alone file [] := fun _ mem => absurd mem (by simp)
  refine ⟨mem_foldl_put alone aloneStart (.inr mem), fun other written name => ?_⟩
  obtain ⟨earlier, inFiles, path⟩ := path_of_mem_foldl_put [] written
  have isFile := only earlier (by simpa using inFiles) (by rw [path, name])
  refine alone_foldl_put alone aloneStart other written ?_
  rw [← path, isFile, Path.same_refl]

/-! ## The files of a batch -/

/-- The stems of all units differ, and none has a slash, as no name of a file has. -/
structure WellNamed (units : List CompilationUnit) : Prop where
  distinct : (units.map fun unit => stem unit.primary).Nodup
  plain : ∀ unit ∈ units, '/' ∉ (stem unit.primary).toList

theorem wellNamed_iff {units : List CompilationUnit} :
    WellNamed units ↔
      (units.map fun unit => stem unit.primary).Nodup ∧ ∀ unit ∈ units, '/' ∉ (stem unit.primary).toList :=
  ⟨fun named => ⟨named.distinct, named.plain⟩, fun both => ⟨both.1, both.2⟩⟩

instance (units : List CompilationUnit) : Decidable (WellNamed units) := decidable_of_iff _ wellNamed_iff.symm

theorem WellNamed.sublist {units chosen : List CompilationUnit} (named : WellNamed units) (part : chosen.Sublist units) :
    WellNamed chosen :=
  ⟨named.distinct.sublist (part.map _), fun unit mem => named.plain unit (part.subset mem)⟩

theorem WellNamed.eq {units : List CompilationUnit} (named : WellNamed units) {unit other : CompilationUnit}
    (mem : unit ∈ units) (mem' : other ∈ units) (same : stem unit.primary = stem other.primary) : unit = other :=
  List.inj_on_of_nodup_map named.distinct mem mem' same

/-- The name of the module of a file. -/
def moduleName (file : Path) : String := stem file ++ ".sol.js"

theorem moduleName_inj {file other : Path} (same : moduleName file = moduleName other) : stem file = stem other := by
  have chars := congrArg String.toList same
  simp only [moduleName, String.toList_append, List.append_cancel_right_eq] at chars
  exact String.toList_inj.mp chars

theorem getLast?_moduleName (file : Path) : (moduleName file).toList.getLast? = some 's' := by
  have ending : ".sol.js".toList ≠ [] := by decide
  rw [moduleName, String.toList_append, List.getLast?_append_of_ne_nil _ ending]
  decide

theorem isName_moduleName (file : Path) : IsName (moduleName file) :=
  Path.isName_of_getLast? (getLast?_moduleName file) (by decide)

theorem getLast?_modulePath (config : Configuration) {file : Path} (plain : '/' ∉ (stem file).toList) :
    (modulePath config file).segments.getLast? = some (moduleName file) := by
  refine Path.getLast?_child_of_plain _ ?_
  simp only [String.toList_append, List.mem_append, not_or]
  exact ⟨plain, by decide⟩

/-- A path whose last name ends otherwise than that of a module. -/
def IsOther (p : Path) : Prop :=
  ∃ name last, p.segments.getLast? = some name ∧ name.toList.getLast? = some last ∧ (last = 'l' ∨ last = 'n')

theorem IsOther.isName {p : Path} (other : IsOther p) : ∃ name, p.segments.getLast? = some name ∧ IsName name := by
  obtain ⟨name, last, ends, letter, which⟩ := other
  refine ⟨name, ends, Path.isName_of_getLast? letter ?_⟩
  rcases which with rfl | rfl <;> decide

theorem IsOther.ne_module {p : Path} (other : IsOther p) (file : Path) :
    p.segments.getLast? ≠ some (moduleName file) := by
  obtain ⟨name, last, ends, letter, which⟩ := other
  intro same
  rw [ends] at same
  rw [Option.some.inj same, getLast?_moduleName] at letter
  rcases which with rfl | rfl <;> exact absurd letter (by decide)

theorem exists_last_child (p : Path) (front ending : String) (last : Char) (plain : '/' ∉ ending.toList)
    (letter : ending.toList.getLast? = some last) :
    ∃ name, (p.child (front ++ ending)).segments.getLast? = some name ∧ name.toList.getLast? = some last := by
  obtain ⟨head, ends⟩ := Path.getLast?_child_append p front plain
  have nonempty : ending.toList ≠ [] := by
    intro empty
    simp [empty] at letter
  exact ⟨_, ends, by rw [String.toList_ofList, List.getLast?_append_of_ne_nil _ nonempty, letter]⟩

theorem isOther_child (p : Path) (front ending : String) (last : Char) (plain : '/' ∉ ending.toList)
    (letter : ending.toList.getLast? = some last) (which : last = 'l' ∨ last = 'n') :
    IsOther (p.child (front ++ ending)) := by
  obtain ⟨name, ends, letter⟩ := exists_last_child p front ending last plain letter
  exact ⟨name, last, ends, letter, which⟩

theorem isOther_flattenedPath (config : Configuration) (file : Path) : IsOther (flattenedPath config file) :=
  isOther_child _ _ "_all.sol" 'l' (by decide) (by decide) (.inl rfl)

theorem isOther_documentPath (config : Configuration) (contract : String) : IsOther (documentPath config contract) :=
  isOther_child _ _ ".json" 'n' (by decide) (by decide) (.inr rfl)

variable {config : Configuration} {c : Compilation} {units : List CompilationUnit}

theorem WellNamed.isName (named : WellNamed units) {p : Path}
    (which : (∃ unit ∈ units, p = modulePath config unit.primary) ∨ IsOther p) :
    ∃ name, p.segments.getLast? = some name ∧ IsName name := by
  rcases which with ⟨unit, mem, rfl⟩ | other
  · exact ⟨_, getLast?_modulePath config (named.plain unit mem), isName_moduleName _⟩
  · exact other.isName

theorem isOther_of_mem_snapshot {file : OutputFile} (mem : file ∈ snapshot config c) : IsOther file.path := by
  have request : "solcStandardInput.json" = "solcStandardInput" ++ ".json" := by decide
  have answer : "solcStandardOutput.json" = "solcStandardOutput" ++ ".json" := by decide
  simp only [snapshot, request, answer, List.mem_cons, List.not_mem_nil, or_false] at mem
  rcases mem with rfl | rfl
  · dsimp only
    exact isOther_child _ "solcStandardInput" ".json" 'n' (by decide) (by decide) (.inr rfl)
  · dsimp only
    exact isOther_child _ "solcStandardOutput" ".json" 'n' (by decide) (by decide) (.inr rfl)

/-- An output of a unit is its module or is named otherwise than modules are. -/
theorem module_or_other {unit : CompilationUnit} {files : List OutputFile}
    (rendered : unitOutputs config c unit = .ok files) {file : OutputFile} (mem : file ∈ files) :
    (file.path = modulePath config unit.primary ∧
      exportModule c.store c.names c.result unit c.release = .ok file.contents) ∨ IsOther file.path := by
  obtain ⟨text, module, rendered⟩ := bind_eq_ok_iff.mp rendered
  obtain ⟨flat, _, rendered⟩ := bind_eq_ok_iff.mp rendered
  obtain ⟨documents, _, rendered⟩ := bind_eq_ok_iff.mp rendered
  cases rendered
  simp only [List.mem_cons, List.mem_map] at mem
  rcases mem with rfl | rfl | ⟨⟨contract, document⟩, _, rfl⟩
  · left
    dsimp only
    exact ⟨rfl, module⟩
  · right
    dsimp only
    exact isOther_flattenedPath config unit.primary
  · right
    dsimp only
    exact isOther_documentPath config contract

/-- Every file of a batch is the module of a unit or is named otherwise than modules are. -/
theorem module_or_other_of_rendered {rendered : List (List OutputFile)}
    (outputs : units.mapM (unitOutputs config c) = .ok rendered) {file : OutputFile}
    (mem : file ∈ snapshot config c ++ rendered.flatten) :
    (∃ unit ∈ units, file.path = modulePath config unit.primary ∧
      exportModule c.store c.names c.result unit c.release = .ok file.contents) ∨ IsOther file.path := by
  rcases List.mem_append.mp mem with inSnapshot | inUnit
  · exact .inr (isOther_of_mem_snapshot inSnapshot)
  · obtain ⟨files, listed, inFiles⟩ := List.mem_flatten.mp inUnit
    obtain ⟨unit, unitMem, renderedUnit⟩ := mem_of_mem_of_mapM outputs listed
    rcases module_or_other renderedUnit inFiles with module | other
    · exact .inl ⟨unit, unitMem, module⟩
    · exact .inr other

theorem WellNamed.isName_of_rendered (named : WellNamed units) {rendered : List (List OutputFile)}
    (outputs : units.mapM (unitOutputs config c) = .ok rendered) {file : OutputFile}
    (mem : file ∈ snapshot config c ++ rendered.flatten) :
    ∃ name, file.path.segments.getLast? = some name ∧ IsName name := by
  have which : (∃ unit ∈ units, file.path = modulePath config unit.primary) ∨ IsOther file.path :=
    (module_or_other_of_rendered outputs mem).imp_left fun ⟨owner, ownerMem, path, _⟩ => ⟨owner, ownerMem, path⟩
  exact named.isName which

theorem module_or_other_of_mem {files : List OutputFile} (written : outputs config c units = .ok files)
    {file : OutputFile} (mem : file ∈ files) :
    (∃ unit ∈ units, file.path = modulePath config unit.primary) ∨ IsOther file.path := by
  obtain ⟨rendered, each, whole⟩ := bind_eq_ok_iff.mp written
  cases whole
  obtain ⟨given, listed, path⟩ := path_of_mem_foldl_put [] mem
  rw [← path]
  rcases module_or_other_of_rendered each (by simpa using listed) with ⟨unit, unitMem, same, _⟩ | other
  · exact .inl ⟨unit, unitMem, same⟩
  · exact .inr other

/-- The module of a unit is the only file of a batch with its name. -/
theorem exists_module {files : List OutputFile} (written : outputs config c units = .ok files)
    (named : WellNamed units) {unit : CompilationUnit} (mem : unit ∈ units) :
    ∃ text, exportModule c.store c.names c.result unit c.release = .ok text ∧
      ⟨modulePath config unit.primary, text⟩ ∈ files ∧
      ∀ other ∈ files, other.path.segments.getLast? = some (moduleName unit.primary) →
        other = ⟨modulePath config unit.primary, text⟩ := by
  obtain ⟨rendered, each, whole⟩ := bind_eq_ok_iff.mp written
  cases whole
  obtain ⟨unitFiles, listed, renderedUnit⟩ := ok_of_mem_of_mapM each mem
  obtain ⟨text, module, renderedUnit⟩ := bind_eq_ok_iff.mp renderedUnit
  obtain ⟨flat, _, renderedUnit⟩ := bind_eq_ok_iff.mp renderedUnit
  obtain ⟨documents, _, renderedUnit⟩ := bind_eq_ok_iff.mp renderedUnit
  cases renderedUnit
  have ends := getLast?_modulePath config (named.plain unit mem)
  -- Whatever has the name of the module comes from this unit, for another unit has another stem.
  have only : ∀ other ∈ snapshot config c ++ rendered.flatten,
      other.path.segments.getLast? = some (moduleName unit.primary) →
        other = ⟨modulePath config unit.primary, text⟩ := by
    intro other inFiles name
    rcases module_or_other_of_rendered each inFiles with ⟨owner, ownerMem, path, content⟩ | other
    · rw [path, getLast?_modulePath config (named.plain owner ownerMem)] at name
      have same := named.eq ownerMem mem (moduleName_inj (Option.some.inj name))
      subst same
      rw [module] at content
      obtain ⟨place, contents⟩ := other
      dsimp only at path content
      rw [path, ← Except.ok.inj content]
    · exact absurd name (other.ne_module unit.primary)
  have inFiles : ⟨modulePath config unit.primary, text⟩ ∈ snapshot config c ++ rendered.flatten :=
    List.mem_append_right _ (List.mem_flatten.mpr ⟨_, listed, by simp⟩)
  exact ⟨text, module,
    mem_foldl_put_of_named inFiles ends (isName_moduleName _) (fun _ => named.isName_of_rendered each) only⟩

end SolidityBuild.Artifact
