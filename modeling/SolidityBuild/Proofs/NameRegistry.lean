import SolidityBuild.Request.Basic
import SolidityBuild.Proofs.Dictionary
import SolidityBuild.Proofs.Paths
import Mathlib.Data.List.Infix

/-!
# Laws of the name registry

A name stands for the first file it was registered for, whatever is registered later (`Extends.get?`). Every
name has an owner, which stands for the same file (`WellFormed`), and a primary name that owns its file never
loses it (`Extends.owner`).
-/

namespace SolidityBuild.NameRegistry

/-! ## Names that begin others -/

/-- Whatever lies between a text and a continuation of it in their order continues it too. -/
theorem prefix_of_between {a b c : List Char} (begins : a <+: c) (above : a < b) (notAbove : ¬c < b) : a <+: b := by
  induction a generalizing b c with
  | nil => exact List.nil_prefix
  | cons x a ih =>
    obtain ⟨rest, rfl⟩ := begins
    cases b with
    | nil => cases above
    | cons y b =>
      rw [List.cons_append, List.cons_lt_cons_iff, not_or] at notAbove
      rcases List.cons_lt_cons_iff.mp above with smaller | ⟨rfl, tail⟩
      · exact absurd smaller notAbove.1
      · rw [List.prefix_cons_inj]
        exact ih (List.prefix_append a rest) tail fun lt => notAbove.2 ⟨rfl, lt⟩

theorem lt_of_begins {name other : String} (begins : name.toList <+: other.toList) (differs : other ≠ name) :
    name < other := by
  obtain ⟨rest, whole⟩ := begins
  rw [String.lt_iff]
  by_contra notLess
  exact differs (String.toList_inj.mp (List.le_antisymm notLess (whole ▸ List.le_append_left)))

/-- Looking at the next name tells whether any other name begins with a name. -/
theorem beginsAnother_iff {registry : NameRegistry} {name : String} :
    registry.beginsAnother name = true ↔
      ∃ other file, registry.names.get? other = some file ∧ other ≠ name ∧ name.toList <+: other.toList := by
  have ordered : registry.names.keys.Pairwise (· < ·) := List.pairwise_map.mpr registry.names.ordered
  have named {other : String} : (∃ file, registry.names.get? other = some file) ↔ other ∈ registry.names.keys :=
    Dict.mem_keys.symm
  unfold beginsAnother
  generalize registry.names.keys = keys at ordered named
  rw [Option.any_eq_true]
  constructor
  · rintro ⟨next, found, begins⟩
    obtain ⟨file, there⟩ := named.mpr (List.mem_of_find?_eq_some found)
    have above : name < next := by simpa using List.find?_some found
    exact ⟨next, file, there, fun same => String.lt_irrefl name (same ▸ above), List.isPrefixOf_iff_prefix.mp begins⟩
  · rintro ⟨other, file, there, differs, begins⟩
    have above : name < other := lt_of_begins begins differs
    have mem : other ∈ keys := named.mp ⟨file, there⟩
    cases found : keys.find? (name < ·) with
    | none => exact absurd above (by simpa using List.find?_eq_none.mp found other mem)
    | some next =>
      obtain ⟨next_above, before, after, rfl, smaller⟩ := List.find?_eq_some_iff_append.mp found
      -- The other name is the next one or comes behind it.
      have notAbove : ¬other < next := by
        rcases List.mem_append.mp mem with early | late
        · exact absurd above (by simpa using smaller other early)
        rcases List.mem_cons.mp late with rfl | later
        · exact String.lt_irrefl _
        · exact String.lt_asymm ((List.pairwise_cons.mp (List.pairwise_append.mp ordered).2.1).1 other later)
      have between : name.toList < next.toList := String.lt_iff.mp (by simpa using next_above)
      rw [String.lt_iff] at notAbove
      exact ⟨next, rfl, List.isPrefixOf_iff_prefix.mpr (prefix_of_between begins between notAbove)⟩

/-! ## Registering one name -/

/-- A name is free for a file: it stands for no other one. -/
def Free (registry : NameRegistry) (name : String) (file : Path) : Prop :=
  ∀ present, registry.names.get? name = some present → present.same file = true

theorem free_of_get?_eq_none {registry : NameRegistry} {name : String} (unused : registry.names.get? name = none)
    (file : Path) : registry.Free name file := by
  intro present found
  rw [unused] at found
  cases found

/-- The registry with a name for a file, before the question of ownership. -/
def withName (registry : NameRegistry) (name : String) (file : Path) (isPrimary : Bool) : NameRegistry :=
  { registry with
    names := if registry.names.contains name then registry.names else registry.names.insert name file
    primaryNames :=
      if isPrimary && !registry.primaryNames.contains name then registry.primaryNames ++ [name]
      else registry.primaryNames }

theorem register_of_taken {registry : NameRegistry} {name : String} {file : Path} (taken : ¬registry.Free name file)
    (isPrimary : Bool) : registry.register name file isPrimary = registry := by
  unfold register
  cases found : registry.names.get? name with
  | none => exact absurd (free_of_get?_eq_none found file) taken
  | some present =>
    have other : present.same file = false := by
      cases same : present.same file with
      | false => rfl
      | true =>
        refine absurd (fun named there => ?_) taken
        rw [found] at there
        rw [← Option.some.inj there, same]
    simp [other]

theorem register_of_free {registry : NameRegistry} {name : String} {file : Path} (free : registry.Free name file)
    (isPrimary : Bool) :
    registry.register name file isPrimary =
      if (registry.withName name file isPrimary).takesOver name file isPrimary then
        (registry.withName name file isPrimary).setOwner file name
      else registry.withName name file isPrimary := by
  unfold register
  cases found : registry.names.get? name with
  | none => rfl
  | some present => simp [free present found, withName]

@[simp] theorem names_setOwner (registry : NameRegistry) (file : Path) (name : String) :
    (registry.setOwner file name).names = registry.names := rfl

@[simp] theorem owner?_withName (registry : NameRegistry) (name : String) (file : Path) (isPrimary : Bool)
    (other : Path) : (registry.withName name file isPrimary).owner? other = registry.owner? other := rfl

theorem get?_withName (registry : NameRegistry) (name : String) (file : Path) (isPrimary : Bool) (other : String) :
    (registry.withName name file isPrimary).names.get? other =
      if other = name then some ((registry.names.get? name).getD file) else registry.names.get? other := by
  unfold withName
  by_cases here : other = name
  · subst here
    cases found : registry.names.get? other with
    | none => simp [Dict.contains, found, Dict.get?_insert]
    | some present => simp [Dict.contains, found]
  · by_cases known : registry.names.contains name = true
    · simp [known, here]
    · simp [known, here, Dict.get?_insert]

/-- A name stands for the first file it was registered for. -/
theorem get?_register (registry : NameRegistry) (name : String) (file : Path) (isPrimary : Bool) (other : String) :
    (registry.register name file isPrimary).names.get? other =
      if other = name then some ((registry.names.get? name).getD file) else registry.names.get? other := by
  by_cases free : registry.Free name file
  · rw [register_of_free free]
    split
    · rw [names_setOwner, get?_withName]
    · exact get?_withName registry name file isPrimary other
  · rw [register_of_taken free]
    by_cases here : other = name
    · subst here
      cases found : registry.names.get? other with
      | none => exact absurd (free_of_get?_eq_none found file) free
      | some present => simp
    · rw [if_neg here]

/-! ## Owners -/

theorem owner?_congr (registry : NameRegistry) {file other : Path} (same : file.same other = true) :
    registry.owner? file = registry.owner? other := by
  simp only [owner?, Path.same_right same]

theorem owner?_setOwner (registry : NameRegistry) (file : Path) (name : String) (other : Path) :
    (registry.setOwner file name).owner? other = if file.same other then some name else registry.owner? other := by
  unfold owner? setOwner
  by_cases present : (registry.owners.any (·.1.same file)) = true
  · have unmoved : ((fun entry : Path × String => entry.1.same other) ∘ fun entry : Path × String =>
        if entry.1.same file then (entry.1, name) else entry) = fun entry => entry.1.same other := by
      funext entry
      simp only [Function.comp_apply]
      split <;> rfl
    simp only [present, if_true, List.find?_map, unmoved]
    by_cases same : file.same other = true
    · obtain ⟨entry, listed, here⟩ := List.any_eq_true.mp present
      cases found : registry.owners.find? (·.1.same other) with
      | none =>
        have absent := List.find?_eq_none.mp found entry listed
        exact absurd (Path.same_trans here same) absent
      | some owner =>
        have there : owner.1.same other = true := by simpa using List.find?_some found
        simp [same, Path.same_trans there (Path.same_symm same)]
    · cases found : registry.owners.find? (·.1.same other) with
      | none => simp [same]
      | some owner =>
        have there : owner.1.same other = true := by simpa using List.find?_some found
        have elsewhere : ¬owner.1.same file = true := fun here =>
          same (Path.same_trans (Path.same_symm here) there)
        simp [same, elsewhere]
  · simp only [present, Bool.false_eq_true, if_false, List.find?_append, List.find?_cons, List.find?_nil]
    by_cases same : file.same other = true
    · have absent : registry.owners.find? (·.1.same other) = none := by
        refine List.find?_eq_none.mpr fun entry listed there => present ?_
        exact List.any_eq_true.mpr ⟨entry, listed, Path.same_trans there (Path.same_symm same)⟩
      simp [same, absent]
    · simp [same]

/-- What becomes of the owners when a free name is registered. -/
theorem owner?_register {registry : NameRegistry} {name : String} {file : Path} (free : registry.Free name file)
    (isPrimary : Bool) (other : Path) :
    (registry.register name file isPrimary).owner? other =
      if (registry.withName name file isPrimary).takesOver name file isPrimary = true ∧ file.same other = true then
        some name
      else registry.owner? other := by
  rw [register_of_free free]
  by_cases takes : (registry.withName name file isPrimary).takesOver name file isPrimary = true
  · rw [if_pos takes, owner?_setOwner]
    simp [takes]
  · rw [if_neg takes]
    simp [takes]

theorem mem_primaryNames_withName {registry : NameRegistry} {name other : String} {file : Path} {isPrimary : Bool} :
    other ∈ (registry.withName name file isPrimary).primaryNames ↔
      other ∈ registry.primaryNames ∨ isPrimary = true ∧ other = name := by
  unfold withName
  cases isPrimary with
  | false => simp
  | true =>
    by_cases known : name ∈ registry.primaryNames
    · simp only [Bool.true_and, List.contains_iff_mem.mpr known, Bool.not_true, Bool.false_eq_true, if_false,
        true_and]
      constructor
      · exact Or.inl
      · rintro (mem | rfl)
        · exact mem
        · exact known
    · simp [known]

theorem primaryNames_register {registry : NameRegistry} {name : String} {file : Path} (free : registry.Free name file)
    (isPrimary : Bool) :
    (registry.register name file isPrimary).primaryNames =
      (registry.withName name file isPrimary).primaryNames := by
  rw [register_of_free free]
  split <;> rfl

/-- A name takes over from an owner that is another name and was never primary, if it is primary itself. -/
theorem takesOver_iff {registry : NameRegistry} {name : String} {file : Path} {isPrimary : Bool} :
    (registry.withName name file isPrimary).takesOver name file isPrimary = true ↔
      ∀ owner, registry.owner? file = some owner →
        owner ≠ name ∧ isPrimary = true ∧ owner ∉ registry.primaryNames := by
  unfold takesOver
  rw [owner?_withName]
  cases registry.owner? file with
  | none => simp
  | some owner =>
    have known : (registry.withName name file isPrimary).primaryNames.contains owner = true ↔
        owner ∈ registry.primaryNames ∨ isPrimary = true ∧ owner = name :=
      List.contains_iff_mem.trans mem_primaryNames_withName
    simp only [Bool.and_eq_true, decide_eq_true_eq, Bool.not_eq_true', ← Bool.not_eq_true, known, not_or,
      Option.some.injEq, forall_eq', not_and]
    constructor
    · rintro ⟨⟨differs, primary⟩, new, _⟩
      exact ⟨differs, primary, new⟩
    · rintro ⟨differs, primary, new⟩
      exact ⟨⟨differs, primary⟩, new, fun _ => differs⟩

/-! ## Registries that are built by registering -/

/-- The owner of a file is one of its names, and every name has an owner. -/
structure WellFormed (registry : NameRegistry) : Prop where
  named : ∀ entry ∈ registry.owners, ∃ file, registry.names.get? entry.2 = some file ∧ file.same entry.1 = true
  owned : ∀ {name file}, registry.names.get? name = some file → ∃ owner, registry.owner? file = some owner

theorem wellFormed_empty : WellFormed empty :=
  ⟨fun entry mem => (List.not_mem_nil mem).elim, fun found => by cases found⟩

/-- The name that owns a file stands for that file. -/
theorem WellFormed.get?_owner {registry : NameRegistry} (wellFormed : WellFormed registry) {file : Path}
    {owner : String} (owned : registry.owner? file = some owner) :
    ∃ present, registry.names.get? owner = some present ∧ present.same file = true ∧
      registry.owner? present = some owner := by
  obtain ⟨entry, listed, rfl⟩ := Option.map_eq_some_iff.mp owned
  obtain ⟨present, named, same⟩ := wellFormed.named entry (List.mem_of_find?_eq_some listed)
  have here : entry.1.same file = true := by simpa using List.find?_some listed
  have isFile := Path.same_trans same here
  refine ⟨present, named, isFile, ?_⟩
  rw [owner?_congr registry isFile, owned]

theorem WellFormed.register {registry : NameRegistry} (wellFormed : WellFormed registry) (name : String)
    (file : Path) (isPrimary : Bool) : WellFormed (registry.register name file isPrimary) := by
  by_cases free : registry.Free name file
  swap
  · rw [register_of_taken free]
    exact wellFormed
  have itself : ((registry.names.get? name).getD file).same file = true := by
    cases found : registry.names.get? name with
    | none => exact Path.same_refl file
    | some present => exact free present found
  have kept {other : String} {present : Path} (found : registry.names.get? other = some present) :
      (registry.register name file isPrimary).names.get? other = some present := by
    rw [get?_register]
    split
    · next same => rw [← same, found, Option.getD_some]
    · exact found
  have new : (registry.register name file isPrimary).names.get? name =
      some ((registry.names.get? name).getD file) := by rw [get?_register, if_pos rfl]
  constructor
  · intro entry mem
    have old : entry ∈ registry.owners → ∃ present,
        (registry.register name file isPrimary).names.get? entry.2 = some present ∧ present.same entry.1 = true := by
      intro listed
      obtain ⟨present, found, same⟩ := wellFormed.named entry listed
      exact ⟨present, kept found, same⟩
    rw [register_of_free free] at mem
    split at mem
    · unfold setOwner at mem
      dsimp only at mem
      split at mem
      · obtain ⟨before, listed, same⟩ := List.mem_map.mp mem
        split at same
        · next here =>
          rw [← same]
          exact ⟨_, new, Path.same_trans itself (Path.same_symm here)⟩
        · exact same ▸ old (same ▸ listed)
      · rcases List.mem_append.mp mem with listed | last
        · exact old listed
        · rw [List.mem_singleton.mp last]
          exact ⟨_, new, itself⟩
    · exact old mem
  · intro other present found
    rw [owner?_register free]
    split
    · exact ⟨name, rfl⟩
    next unchanged =>
    rw [get?_register] at found
    split at found
    · -- Where the name does not take over, its file has an owner already.
      have same : present.same file = true := by
        rw [← Option.some.inj found]
        exact itself
      rw [owner?_congr registry same]
      cases owner : registry.owner? file with
      | some present => exact ⟨present, rfl⟩
      | none =>
        have takes : (registry.withName name file isPrimary).takesOver name file isPrimary = true :=
          takesOver_iff.mpr fun present there => by
            rw [owner] at there
            cases there
        exact absurd ⟨takes, Path.same_symm same⟩ unchanged
    · exact wellFormed.owned found

/-- A registry is reached from another one by registering names. -/
inductive Extends : NameRegistry → NameRegistry → Prop
  | refl (registry : NameRegistry) : Extends registry registry
  | register {registry later : NameRegistry} (name : String) (file : Path) (isPrimary : Bool) :
      Extends registry later → Extends registry (later.register name file isPrimary)

theorem Extends.trans {registry middle later : NameRegistry} (first : Extends registry middle)
    (second : Extends middle later) : Extends registry later := by
  induction second with
  | refl => exact first
  | register name file isPrimary _ ih => exact ih.register name file isPrimary

theorem Extends.wellFormed {registry later : NameRegistry} (ext : Extends registry later)
    (wellFormed : WellFormed registry) : WellFormed later := by
  induction ext with
  | refl => exact wellFormed
  | register name file isPrimary _ ih => exact ih.register name file isPrimary

/-- Names keep their meaning. -/
theorem Extends.get? {registry later : NameRegistry} (ext : Extends registry later) {name : String} {file : Path}
    (found : registry.names.get? name = some file) : later.names.get? name = some file := by
  induction ext with
  | refl => exact found
  | register other target isPrimary _ ih =>
    rw [get?_register]
    split
    · next same => rw [← same, ih, Option.getD_some]
    · exact ih

/-- A primary name that owns a file owns it for good. -/
theorem Extends.owner {registry later : NameRegistry} (ext : Extends registry later) {name : String} {file : Path}
    (owner : registry.owner? file = some name) (primary : name ∈ registry.primaryNames) :
    later.owner? file = some name ∧ name ∈ later.primaryNames := by
  induction ext with
  | refl => exact ⟨owner, primary⟩
  | @register later other target isPrimary _ ih =>
    by_cases free : later.Free other target
    · constructor
      · rw [owner?_register free, if_neg]
        · exact ih.1
        · rintro ⟨takes, same⟩
          rw [← owner?_congr later same] at ih
          exact (takesOver_iff.mp takes name ih.1).2.2 ih.2
      · rw [primaryNames_register free]
        exact mem_primaryNames_withName.mpr (.inl ih.2)
    · rw [register_of_taken free]
      exact ih

theorem extends_register (registry : NameRegistry) (name : String) (file : Path) (isPrimary : Bool) :
    Extends registry (registry.register name file isPrimary) := (Extends.refl registry).register name file isPrimary

theorem extends_foldl {α : Type} {step : NameRegistry → α → NameRegistry}
    (each : ∀ registry item, Extends registry (step registry item)) (registry : NameRegistry) (items : List α) :
    Extends registry (items.foldl step registry) := by
  induction items generalizing registry with
  | nil => exact .refl registry
  | cons item rest ih => exact (each registry item).trans (ih _)

theorem extends_registerImport (importerNames : List String) (registry : NameRegistry) (edge : ImportEdge) :
    Extends registry (registerImport importerNames registry edge) := by
  unfold registerImport
  split
  · exact extends_foldl (fun registry name => extends_register registry _ edge.target false) registry importerNames
  · exact extends_register registry edge.reference edge.target false

theorem extends_registerReachable (graph : ImportGraph) (registry : NameRegistry) (seen queue : List Path) :
    Extends registry (registerReachable graph registry seen queue) := by
  induction registry, seen, queue using registerReachable.induct graph with
  | case1 registry seen =>
    rw [registerReachable]
    exact .refl registry
  | case2 registry seen importer queue edges known ih =>
    rw [registerReachable]
    exact (extends_foldl (extends_registerImport _) registry edges).trans ih

theorem extends_registerUnit (graph : ImportGraph) (registry : NameRegistry) (primary : Path) :
    Extends (registry.register primary.text primary true) (registerUnit graph registry primary) :=
  extends_registerReachable graph _ _ _

/-! ## Names of imports -/

/-- The name under which the compiler asks for an import of the source with the given name. -/
def importName (importer reference : String) : String :=
  if Source.Import.isRelative reference then joined importer reference else reference

theorem exists_get?_register (registry : NameRegistry) (name : String) (file : Path) (isPrimary : Bool) :
    ∃ present, (registry.register name file isPrimary).names.get? name = some present :=
  ⟨_, by rw [get?_register, if_pos rfl]⟩

/-- Following an import registers it under the names that follow from those of the importer. -/
theorem get?_registerImport {importerNames : List String} {registry : NameRegistry} {edge : ImportEdge}
    {importer : String} (asked : Source.Import.isRelative edge.reference = true → importer ∈ importerNames) :
    ∃ present, (registerImport importerNames registry edge).names.get? (importName importer edge.reference) =
      some present := by
  unfold registerImport importName
  split
  · next relative =>
    have mem := asked relative
    clear asked
    induction importerNames generalizing registry with
    | nil => cases mem
    | cons first rest ih =>
      rw [List.foldl_cons]
      rcases List.mem_cons.mp mem with rfl | later
      · obtain ⟨present, found⟩ :=
          exists_get?_register registry (joined importer edge.reference) edge.target false
        exact ⟨present, (extends_foldl (fun registry name => extends_register registry _ edge.target false) _
          rest).get? found⟩
      · exact ih later
  · exact exists_get?_register registry edge.reference edge.target false

theorem get?_foldl_registerImport {importerNames : List String} {registry : NameRegistry} {edges : List ImportEdge}
    {edge : ImportEdge} (mem : edge ∈ edges) {importer : String}
    (asked : Source.Import.isRelative edge.reference = true → importer ∈ importerNames) :
    ∃ present, (edges.foldl (registerImport importerNames) registry).names.get?
      (importName importer edge.reference) = some present := by
  induction edges generalizing registry with
  | nil => cases mem
  | cons first rest ih =>
    rw [List.foldl_cons]
    rcases List.mem_cons.mp mem with rfl | later
    · have here : ∃ present, (registerImport importerNames registry edge).names.get? _ = some present :=
        get?_registerImport asked
      obtain ⟨present, found⟩ := here
      exact ⟨present, (extends_foldl (extends_registerImport importerNames) _ rest).get? found⟩
    · exact ih later

theorem get?_register_cases {registry : NameRegistry} {name other : String} {file present : Path} {isPrimary : Bool}
    (found : (registry.register name file isPrimary).names.get? other = some present) :
    registry.names.get? other = some present ∨ present = file := by
  rw [get?_register] at found
  split at found
  · next same =>
    rw [same]
    cases known : registry.names.get? name with
    | none => exact .inr (by simpa [known] using found.symm)
    | some old => exact .inl (by simpa [known] using found)
  · exact .inl found

/-- What is new after following imports stands for a file that one of them led to. -/
theorem get?_foldl_registerImport_cases {importerNames : List String} {registry : NameRegistry}
    {edges : List ImportEdge} {name : String} {present : Path}
    (found : (edges.foldl (registerImport importerNames) registry).names.get? name = some present) :
    registry.names.get? name = some present ∨ ∃ edge ∈ edges, present = edge.target := by
  induction edges generalizing registry with
  | nil => exact .inl found
  | cons edge rest ih =>
    rcases ih found with before | ⟨later, mem, same⟩
    · have one : registry.names.get? name = some present ∨ present = edge.target := by
        unfold registerImport at before
        split at before
        · clear found ih
          induction importerNames generalizing registry with
          | nil => exact .inl before
          | cons first names ih =>
            rcases ih before with known | new
            · exact get?_register_cases known
            · exact .inr new
        · exact get?_register_cases before
      rcases one with known | new
      · exact .inl known
      · exact .inr ⟨edge, by simp, new⟩
    · exact .inr ⟨later, List.mem_cons_of_mem _ mem, same⟩

/-! ## Walks -/

/-- A file is taken from the queue of a walk over imports when the registry is `current`. -/
inductive Visits (graph : ImportGraph) : NameRegistry → List Path → List Path → NameRegistry → Path → Prop
  | here (registry : NameRegistry) (seen : List Path) (importer : Path) (queue : List Path) :
      Visits graph registry seen (importer :: queue) registry importer
  | later {registry current : NameRegistry} {seen queue known : List Path} {importer file : Path} :
      known = Workspace.addNew seen ((graph.edges importer).map (·.target)) →
      Visits graph ((graph.edges importer).foldl (registerImport (registry.namesOf importer)) registry) known
        (queue ++ known.drop seen.length) current file →
      Visits graph registry seen (importer :: queue) current file

/-- When a file is taken from the queue, its imports are registered under all names that follow from those
it has by then. -/
theorem Visits.get? {graph : ImportGraph} {registry current : NameRegistry} {seen queue : List Path} {file : Path}
    (visits : Visits graph registry seen queue current file) {edge : ImportEdge} (mem : edge ∈ graph.edges file)
    {importer : String}
    (asked : Source.Import.isRelative edge.reference = true → importer ∈ current.namesOf file) :
    ∃ present, (registerReachable graph registry seen queue).names.get? (importName importer edge.reference) =
      some present := by
  induction visits with
  | here registry seen importer queue =>
    rw [registerReachable]
    obtain ⟨present, found⟩ := get?_foldl_registerImport mem asked
    exact ⟨present, (extends_registerReachable graph _ _ _).get? found⟩
  | later known _ ih =>
    subst known
    rw [registerReachable]
    exact ih mem asked

theorem visits_of_mem_queue (graph : ImportGraph) (registry : NameRegistry) (seen queue : List Path) {file : Path}
    (mem : file ∈ queue) : ∃ current, Visits graph registry seen queue current file := by
  induction registry, seen, queue using registerReachable.induct graph with
  | case1 registry seen => cases mem
  | case2 registry seen importer queue edges known ih =>
    rcases List.mem_cons.mp mem with rfl | later
    · exact ⟨_, .here ..⟩
    · obtain ⟨current, visits⟩ := ih (List.mem_append_left _ later)
      exact ⟨current, .later rfl visits⟩

theorem addNew_spec (seen added : List Path) :
    (∃ new, Workspace.addNew seen added = seen ++ new) ∧
      ∀ p ∈ added, ∃ known ∈ Workspace.addNew seen added, known.same p = true := by
  induction added generalizing seen with
  | nil => exact ⟨⟨[], by simp [Workspace.addNew]⟩, fun p mem => by cases mem⟩
  | cons p rest ih =>
    have step : Workspace.addNew seen (p :: rest) =
        Workspace.addNew (if seen.any (·.same p) then seen else seen ++ [p]) rest := rfl
    rw [step]
    obtain ⟨⟨new, whole⟩, covers⟩ := ih (if seen.any (·.same p) then seen else seen ++ [p])
    constructor
    · rw [whole]
      split
      · exact ⟨new, rfl⟩
      · exact ⟨p :: new, by simp⟩
    · intro q mem
      rcases List.mem_cons.mp mem with rfl | later
      · rw [whole]
        split
        · next present =>
          obtain ⟨known, listed, same⟩ := List.any_eq_true.mp present
          exact ⟨known, List.mem_append_left _ listed, same⟩
        · exact ⟨q, by simp, Path.same_refl q⟩
      · exact covers q later

/-- Every file that gets a name during a walk is taken from the queue at some time, as long as all files
that were seen before were either taken from it (`done`) or are still in it. -/
theorem visits_of_named {graph : ImportGraph} {registry : NameRegistry} {seen queue : List Path} (done : List Path)
    (pending : ∀ p ∈ seen, (∃ q ∈ done, q.same p = true) ∨ ∃ q ∈ queue, q.same p = true) {name : String} {file : Path}
    (named : (registerReachable graph registry seen queue).names.get? name = some file) :
    registry.names.get? name = some file ∨ (∃ q ∈ done, q.same file = true) ∨
      ∃ current q, Visits graph registry seen queue current q ∧ q.same file = true := by
  induction registry, seen, queue using registerReachable.induct graph generalizing done with
  | case1 registry seen =>
    rw [registerReachable] at named
    exact .inl named
  | case2 registry seen importer queue edges known ih =>
    rw [registerReachable] at named
    obtain ⟨⟨new, whole⟩, covers⟩ := addNew_spec seen (edges.map (·.target))
    have added : known.drop seen.length = new := by
      change (Workspace.addNew seen (edges.map (·.target))).drop seen.length = new
      rw [whole, List.drop_left]
    -- A file that was seen is done, or is taken from the queue now or later.
    have seenCases : ∀ p ∈ seen, (∃ q ∈ done, q.same p = true) ∨
        ∃ current q, Visits graph registry seen (importer :: queue) current q ∧ q.same p = true := by
      intro p mem
      rcases pending p mem with isDone | ⟨q, waiting, same⟩
      · exact .inl isDone
      · obtain ⟨current, visits⟩ := visits_of_mem_queue graph registry seen _ waiting
        exact .inr ⟨current, q, visits, same⟩
    have pendingLater : ∀ p ∈ known, (∃ q ∈ importer :: done, q.same p = true) ∨
        ∃ q ∈ queue ++ known.drop seen.length, q.same p = true := by
      intro p mem
      have split : p ∈ seen ∨ p ∈ new := List.mem_append.mp (whole ▸ mem)
      rcases split with old | isNew
      · rcases pending p old with ⟨q, isDone, same⟩ | ⟨q, waiting, same⟩
        · exact .inl ⟨q, List.mem_cons_of_mem _ isDone, same⟩
        · rcases List.mem_cons.mp waiting with rfl | behind
          · exact .inl ⟨q, by simp, same⟩
          · exact .inr ⟨q, List.mem_append_left _ behind, same⟩
      · exact .inr ⟨p, List.mem_append_right _ (added ▸ isNew), Path.same_refl p⟩
    rcases ih (importer :: done) pendingLater named with before | ⟨q, isDone, same⟩ | ⟨current, q, visits, same⟩
    · rcases get?_foldl_registerImport_cases before with old | ⟨edge, mem, rfl⟩
      · exact .inl old
      · obtain ⟨target, listed, same⟩ := covers edge.target (List.mem_map_of_mem mem)
        rw [whole] at listed
        rcases List.mem_append.mp listed with old | isNew
        · rcases seenCases target old with ⟨q, isDone, here⟩ | ⟨current, q, visits, here⟩
          · exact .inr (.inl ⟨q, isDone, Path.same_trans here same⟩)
          · exact .inr (.inr ⟨current, q, visits, Path.same_trans here same⟩)
        · have waiting : target ∈ queue ++ known.drop seen.length := List.mem_append_right _ (added ▸ isNew)
          obtain ⟨current, visits⟩ := visits_of_mem_queue graph _ known _ waiting
          exact .inr (.inr ⟨current, target, .later rfl visits, same⟩)
    · rcases List.mem_cons.mp isDone with rfl | earlier
      · exact .inr (.inr ⟨registry, q, .here .., same⟩)
      · exact .inr (.inl ⟨q, earlier, same⟩)
    · exact .inr (.inr ⟨current, q, .later rfl visits, same⟩)

end SolidityBuild.NameRegistry
