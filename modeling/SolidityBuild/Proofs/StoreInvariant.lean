import SolidityBuild.Proofs.CanonicalPaths
import SolidityBuild.Proofs.ImportClosures

/-!
# What a store holds

A call on a store first looks for files and reads them, and only if all of that succeeds it adds them
(`Faithful.does`). So a call that fails changes nothing, and after any calls a store holds the files that the
successful ones answered, each under its canonical path, as a primary one if a call selected it.
-/

namespace SolidityBuild

/-- If the places of paths tell them apart, then none is left out of a list without repetitions. -/
theorem Workspace.mem_addNew {paths : List Path} (apart : ∀ p ∈ paths, ∀ q ∈ paths, p.same q = true → p = q)
    {p : Path} : p ∈ addNew [] paths ↔ p ∈ paths := by
  induction paths using List.reverseRecOn generalizing p with
  | nil => rfl
  | append_singleton paths q ih =>
    have ih {r : Path} : r ∈ addNew [] paths ↔ r ∈ paths :=
      ih fun p mem q mem' => apart p (List.mem_append_left _ mem) q (List.mem_append_left _ mem')
    rw [addNew_concat]
    split
    · next known =>
      obtain ⟨r, mem, same⟩ := Path.any_same_iff.mp known
      have there := ih.mp mem
      have equal : r = q := apart r (List.mem_append_left _ there) q (by simp) same
      rw [ih, List.mem_append, List.mem_singleton]
      exact ⟨.inl, Or.rec id fun here => by rw [here, ← equal]; exact there⟩
    · rw [List.mem_append, List.mem_append, ih]

namespace SourceStore

variable {tree : FileTree} {base : Path} {constants : Dict String} {store : SourceStore} {calls : List Call}

/-! ## What a call does -/

/-- The paths of the files that a call answers. -/
def Call.answers (tree : FileTree) (store : SourceStore) : Call → Result (List Path)
  | .loadPrimary p => (store.loadPrimary tree p).map fun (unit, _) => [unit.path]
  | .loadPrimaries paths => (store.loadPrimaries tree paths).map (·.1)
  | .resolve reference directory => (store.resolve tree reference directory).1.map fun unit => [unit.path]

/-- The role that a call gives to the files that it answers. -/
def Call.role : Call → Role
  | .resolve _ _ => .dependency
  | _ => .primary

/-- What a call reads before it adds anything. -/
def Call.readings (tree : FileTree) (store : SourceStore) : Call → Result (List (Path × String))
  | .loadPrimary p => (read tree p).map ([·])
  | .loadPrimaries paths => paths.mapM (read tree)
  | .resolve reference directory =>
    if (store.aliases.get? (requestKey reference directory)).isSome then .ok []
    else
      match search tree store.base reference directory with
      | .error searched => .error (.sourceNotFound reference none searched)
      | .ok file => (read tree file).map ([·])

/-- A store with files added. -/
def addAll (store : SourceStore) (role : Role) (files : List (Path × String)) : SourceStore :=
  files.foldl (fun store (p, text) => store.add p text role) store

/-- What can happen in a call. -/
inductive Call.Does (tree : FileTree) (store : SourceStore) (call : Call) : Prop
  /-- A file is not found or not read. -/
  | fails (e : Error) :
      call.readings tree store = .error e → call.answers tree store = .error e →
        (store.after tree call).units = store.units → (store.after tree call).aliases = store.aliases →
          Does tree store call
  /-- It is remembered where the reference led to. -/
  | knows (key : String) (p : Path) :
      store.aliases.get? key = some p → call.role = .dependency →
        call.answers tree store = (store.unit p).map (fun unit => [unit.path]) → store.after tree call = store →
          Does tree store call
  /-- Files are read and added; a new alias leads to one of them. -/
  | adds (files : List (Path × String)) :
      (∀ file ∈ files, ∃ p, read tree p = .ok file) →
        call.answers tree store = .ok (Workspace.addNew [] (files.map (·.1))) →
          (store.after tree call).units = (store.addAll call.role files).units →
            (∀ key p, store.aliases.get? key = some p → (store.after tree call).aliases.get? key = some p) →
              (∀ key p, (store.after tree call).aliases.get? key = some p →
                store.aliases.get? key = some p ∨ p ∈ files.map (·.1)) → Does tree store call

theorem constants_add (store : SourceStore) (p : Path) (text : String) (role : Role) :
    (store.add p text role).constants = store.constants := by rw [add_eq]

theorem aliases_add (store : SourceStore) (p : Path) (text : String) (role : Role) :
    (store.add p text role).aliases = store.aliases := by rw [add_eq]

theorem aliases_addAll (store : SourceStore) (role : Role) (files : List (Path × String)) :
    (store.addAll role files).aliases = store.aliases := by
  induction files generalizing store with
  | nil => rfl
  | cons file rest ih => exact (ih _).trans (store.aliases_add ..)

theorem units_add_vendored (store : SourceStore) (vendored : Option (Dict Path)) (p : Path) (text : String)
    (role : Role) :
    ({ store with vendored }.add p text role).units = (store.add p text role).units := by
  dsimp only [add, get?, promote]
  cases store.units.find? (·.path.same p) <;> cases role <;> rfl

theorem Faithful.unit_add (faithful : Faithful tree base constants calls store) (proper : tree.workingDirectory.Proper)
    {p canonical : Path} {text : String} (found : read tree p = .ok (canonical, text)) (role : Role) :
    ∃ unit, (store.add canonical text role).unit canonical = .ok unit ∧ unit.path = canonical := by
  obtain ⟨unit, there, same⟩ := Option.map_eq_some_iff.mp (faithful.file?_add proper found role)
  exact ⟨unit, unit_eq_ok_iff.mpr there, congrArg Prod.fst same⟩

theorem Faithful.does_loadPrimary (faithful : Faithful tree base constants calls store)
    (proper : tree.workingDirectory.Proper) (p : Path) : (Call.loadPrimary p).Does tree store := by
  have loaded := faithful.load_eq proper p .primary
  cases found : read tree p with
  | error e =>
    have fails : store.loadPrimary tree p = .error e := by
      unfold SourceStore.loadPrimary
      rw [loaded, found]
      rfl
    exact .fails e (by rw [Call.readings, found]; rfl) (by rw [Call.answers, fails]; rfl)
      (by rw [SourceStore.after, fails]; rfl) (by rw [SourceStore.after, fails]; rfl)
  | ok file =>
    obtain ⟨canonical, text⟩ := file
    obtain ⟨unit, there, path⟩ := faithful.unit_add proper found .primary
    have succeeds : store.loadPrimary tree p = .ok (unit, store.add canonical text .primary) := by
      unfold SourceStore.loadPrimary
      rw [loaded, found]
      exact bind_eq_ok_iff.mpr ⟨_, rfl, bind_eq_ok_iff.mpr ⟨unit, there, rfl⟩⟩
    have left : store.after tree (.loadPrimary p) = store.add canonical text .primary := by
      rw [SourceStore.after, succeeds]
      rfl
    refine .adds [(canonical, text)] ?_ ?_ (by rw [left]; rfl) (fun key q => ?_) fun key q => ?_
    · intro file mem
      rw [List.mem_singleton.mp mem]
      exact ⟨p, found⟩
    · rw [Call.answers, succeeds]
      show Except.ok [unit.path] = _
      rw [path]
      rfl
    · rw [left, aliases_add]
      exact id
    · rw [left, aliases_add]
      exact .inl

theorem does_loadPrimaries (paths : List Path) : (Call.loadPrimaries paths).Does tree store := by
  cases found : paths.mapM (read tree) with
  | error e =>
    have fails : store.loadPrimaries tree paths = .error e := by
      unfold SourceStore.loadPrimaries
      rw [found]
      rfl
    exact .fails e found (by rw [Call.answers, fails]; rfl) (by rw [SourceStore.after, fails]; rfl)
      (by rw [SourceStore.after, fails]; rfl)
  | ok files =>
    have succeeds : store.loadPrimaries tree paths =
        .ok (Workspace.addNew [] (files.map (·.1)), store.addAll .primary files) := by
      unfold SourceStore.loadPrimaries Workspace.addNew
      rw [found, List.foldl_map]
      rfl
    have left : store.after tree (.loadPrimaries paths) = store.addAll .primary files := by
      rw [SourceStore.after, succeeds]
      rfl
    refine .adds files (fun file mem => ?_) (by rw [Call.answers, succeeds]; rfl) (by rw [left]; rfl)
      (fun key q => ?_) fun key q => ?_
    · obtain ⟨p, _, reads⟩ := mem_of_mem_of_mapM found mem
      exact ⟨p, reads⟩
    · rw [left, aliases_addAll]
      exact id
    · rw [left, aliases_addAll]
      exact .inl

theorem Faithful.does_resolve (faithful : Faithful tree base constants calls store)
    (proper : tree.workingDirectory.Proper) (reference : String) (directory : Path) :
    (Call.resolve reference directory).Does tree store := by
  cases known : store.aliases.get? (requestKey reference directory) with
  | some p =>
    have answered : store.resolve tree reference directory = (store.unit p, store) := by
      unfold SourceStore.resolve
      dsimp only
      rw [known]
    exact .knows _ p known rfl (by rw [Call.answers, answered]) (by rw [SourceStore.after, answered])
  | none =>
    have searched := faithful.surveyed.locate_fst reference directory
    have located := faithful.locate reference directory
    obtain ⟨vendored, same, _⟩ := store.locate_snd tree reference directory
    have reads (file : Path) (leads : search tree store.base reference directory = .ok file) :
        (Call.resolve reference directory).readings tree store = (read tree file).map ([·]) := by
      rw [Call.readings, known, leads]
      rfl
    have split : store.locate tree reference directory =
        (search tree store.base reference directory, { store with vendored }) := by rw [← searched, ← same]
    rw [same] at located
    cases leads : search tree store.base reference directory with
    | error places =>
      rw [leads] at split
      have answered : store.resolve tree reference directory =
          (.error (.sourceNotFound reference none places), { store with vendored }) := by
        unfold SourceStore.resolve
        dsimp only
        rw [known, split]
      refine .fails (.sourceNotFound reference none places) ?_ (by rw [Call.answers, answered]; rfl)
        (by rw [SourceStore.after, answered]) (by rw [SourceStore.after, answered])
      rw [Call.readings, known, leads]
      rfl
    | ok file =>
      rw [leads] at split
      have loaded := located.load_eq proper file .dependency
      cases found : read tree file with
      | error e =>
        have answered : store.resolve tree reference directory = (.error e, { store with vendored }) := by
          unfold SourceStore.resolve
          dsimp only
          rw [known, split]
          dsimp only
          rw [loaded, found]
          rfl
        exact .fails e (by rw [reads file leads, found]; rfl) (by rw [Call.answers, answered]; rfl)
          (by rw [SourceStore.after, answered]) (by rw [SourceStore.after, answered])
      | ok place =>
        obtain ⟨canonical, text⟩ := place
        obtain ⟨unit, there, path⟩ := located.unit_add proper found .dependency
        have answered : store.resolve tree reference directory = (.ok unit,
            ({ store with vendored }.add canonical text .dependency).remember (requestKey reference directory)
              canonical) := by
          unfold SourceStore.resolve
          dsimp only
          rw [known, split]
          dsimp only
          rw [loaded, found]
          exact congrArg (·, _) there
        have aliases (key : String) : (store.after tree (.resolve reference directory)).aliases.get? key =
            if key = requestKey reference directory then some canonical else store.aliases.get? key := by
          rw [SourceStore.after, answered, remember, Dict.get?_insert, aliases_add]
        refine .adds [(canonical, text)] ?_ ?_ ?_ (fun key q there => ?_) fun key q there => ?_
        · intro file' mem
          rw [List.mem_singleton.mp mem]
          exact ⟨file, found⟩
        · rw [Call.answers, answered]
          show Except.ok [unit.path] = _
          rw [path]
          rfl
        · rw [SourceStore.after, answered]
          exact store.units_add_vendored vendored canonical text .dependency
        · rw [aliases]
          split
          · next here => rw [here, known] at there; cases there
          · exact there
        · rw [aliases] at there
          split at there
          · cases there
            exact .inr (by simp)
          · exact .inl there

/-- A call fails before anything is added, or its reference is known, or it adds the files that it answers. -/
theorem Faithful.does (faithful : Faithful tree base constants calls store) (proper : tree.workingDirectory.Proper)
    (call : Call) : call.Does tree store := by
  cases call with
  | loadPrimary p => exact faithful.does_loadPrimary proper p
  | loadPrimaries paths => exact does_loadPrimaries paths
  | resolve reference directory => exact faithful.does_resolve proper reference directory

/-! ## What a store holds -/

/-- Canonical paths are told apart by their places. -/
theorem eq_of_canonical (proper : tree.workingDirectory.Proper) {p q canonical other : Path}
    (leads : tree.canonical p = .ok canonical) (leads' : tree.canonical q = .ok other)
    (same : canonical.same other = true) : canonical = other := by
  obtain ⟨location, isProper, rfl⟩ := exists_location_of_canonical proper leads
  obtain ⟨location', isProper', rfl⟩ := exists_location_of_canonical proper leads'
  rw [Location.eq_of_same isProper isProper' same]

/-- Of files that are read, none is left out of the list of their paths without repetitions. -/
theorem mem_addNew_of_read (proper : tree.workingDirectory.Proper) {files : List (Path × String)}
    (found : ∀ file ∈ files, ∃ p, read tree p = .ok file) {p : Path} :
    p ∈ Workspace.addNew [] (files.map (·.1)) ↔ p ∈ files.map (·.1) := by
  refine Workspace.mem_addNew fun q mem r mem' same => ?_
  obtain ⟨file, listed, rfl⟩ := List.mem_map.mp mem
  obtain ⟨file', listed', rfl⟩ := List.mem_map.mp mem'
  obtain ⟨_, reads⟩ := found file listed
  obtain ⟨_, reads'⟩ := found file' listed'
  exact eq_of_canonical proper (read_eq_ok_iff.mp reads).1 (read_eq_ok_iff.mp reads').1 same

/-- Whether one of some calls succeeded, gives a role, and answered a file. -/
def Returned (tree : FileTree) (base : Path) (constants : Dict String) (calls : List Call) (role : Role) (p : Path) :
    Prop :=
  ∃ before call, before ++ [call] <+: calls ∧ call.role = role ∧
    ∃ paths, call.answers tree (afterAll tree base constants before) = .ok paths ∧ p ∈ paths

/-- A store holds the files that were returned, as the tree has them. -/
structure Holds (tree : FileTree) (constants : Dict String) (returned : Role → Path → Prop) (store : SourceStore) :
    Prop where
  /-- A unit is stored under its own path. -/
  own : ∀ unit ∈ store.units, store.get? unit.path = some unit
  canonical : ∀ unit ∈ store.units, tree.canonical unit.path = .ok unit.path
  content : ∀ unit ∈ store.units, ∃ text, tree.readText unit.path = .ok text ∧
    unit.content = Source.Constant.substitute constants text
  role : ∀ unit ∈ store.units, unit.role = .primary ↔ returned .primary unit.path
  stored : ∀ p, (∃ unit ∈ store.units, unit.path = p) ↔ ∃ role, returned role p
  aliases : ∀ key p, store.aliases.get? key = some p → ∃ unit ∈ store.units, unit.path = p

section

variable {returned : Role → Path → Prop}

theorem Holds.congr {returned' : Role → Path → Prop} (holds : Holds tree constants returned store)
    (same : ∀ role p, returned role p ↔ returned' role p) : Holds tree constants returned' store := by
  have equal : returned = returned' := funext fun role => funext fun p => propext (same role p)
  rwa [← equal]

/-- The place of a file that is read tells its path among those that are stored. -/
theorem Holds.eq_of_same (holds : Holds tree constants returned store) (rooted : tree.Rooted) {unit : SourceUnit}
    (mem : unit ∈ store.units) {p canonical : Path} {text : String} (found : read tree p = .ok (canonical, text))
    (same : unit.path.same canonical = true) : unit.path = canonical := by
  obtain ⟨leads, _⟩ := read_eq_ok_iff.mp found
  exact eq_of_canonical rooted.proper (holds.canonical unit mem) leads same

/-- A file that is not there becomes a unit of its own. -/
theorem Holds.add_new (holds : Holds tree constants returned store) (rooted : tree.Rooted)
    (constants' : store.constants = constants) {p canonical : Path} {text : String}
    (found : read tree p = .ok (canonical, text)) (role : Role) (new : store.get? canonical = none) :
    Holds tree constants (fun role' q => returned role' q ∨ role' = role ∧ q = canonical)
      (store.add canonical text role) := by
  obtain ⟨leads, reads⟩ := read_eq_ok_iff.mp found
  obtain ⟨location, _, _, again, _⟩ := rooted.exists_location leads reads
  have absent : ∀ unit ∈ store.units, unit.path ≠ canonical := by
    rintro unit mem rfl
    rw [holds.own unit mem] at new
    cases new
  have unknown (role' : Role) : ¬returned role' canonical := by
    intro before
    obtain ⟨unit, mem, path⟩ := (holds.stored canonical).mpr ⟨role', before⟩
    exact absent unit mem path
  have units : (store.add canonical text role).units =
      store.units ++ [⟨canonical, Source.Constant.substitute constants text, role⟩] := by
    unfold add
    rw [new, constants']
  have get? (q : Path) : (store.add canonical text role).get? q =
      (store.get? q).or (if canonical.same q then some ⟨canonical, Source.Constant.substitute constants text, role⟩
        else none) := by
    rw [SourceStore.get?, units, List.find?_append, List.find?_singleton]
    rfl
  refine ⟨fun unit mem => ?_, fun unit mem => ?_, fun unit mem => ?_, fun unit mem => ?_, fun q => ?_,
    fun key q there => ?_⟩
  · rw [units] at mem
    rcases List.mem_append.mp mem with old | here
    · rw [get?, holds.own unit old, Option.some_or]
    · cases List.mem_singleton.mp here
      rw [get?, new, Option.none_or, if_pos canonical.same_refl]
  · rw [units] at mem
    rcases List.mem_append.mp mem with old | here
    · exact holds.canonical unit old
    · cases List.mem_singleton.mp here
      exact again
  · rw [units] at mem
    rcases List.mem_append.mp mem with old | here
    · exact holds.content unit old
    · cases List.mem_singleton.mp here
      exact ⟨text, reads, rfl⟩
  · rw [units] at mem
    rcases List.mem_append.mp mem with old | here
    · simp [holds.role unit old, absent unit old]
    · cases List.mem_singleton.mp here
      simp [unknown, eq_comm]
  · have here : (∃ unit ∈ (store.add canonical text role).units, unit.path = q) ↔
        (∃ unit ∈ store.units, unit.path = q) ∨ canonical = q := by
      rw [units]
      simp [or_and_right, exists_or]
    rw [here, holds.stored]
    simp [exists_or, eq_comm]
  · rw [aliases_add] at there
    obtain ⟨unit, mem, path⟩ := holds.aliases key q there
    exact ⟨unit, by rw [units]; exact List.mem_append_left _ mem, path⟩

/-- A file that is there keeps its content, and may become a primary one. -/
theorem Holds.promote (holds : Holds tree constants returned store) (rooted : tree.Rooted) {p canonical : Path}
    {text : String} (found : read tree p = .ok (canonical, text)) (role : Role) {unit : SourceUnit}
    (there : store.get? canonical = some unit) :
    Holds tree constants (fun role' q => returned role' q ∨ role' = role ∧ q = canonical)
      (store.promote canonical role) := by
  have mem := List.mem_of_find?_eq_some there
  have path := holds.eq_of_same rooted mem found (same_of_get? there)
  have stored (q : Path) : (∃ unit ∈ store.units, unit.path = q) ↔
      ∃ role', returned role' q ∨ role' = role ∧ q = canonical := by
    rw [holds.stored]
    constructor
    · rintro ⟨role', before⟩
      exact ⟨role', .inl before⟩
    · rintro ⟨role', before | ⟨_, rfl⟩⟩
      · exact ⟨role', before⟩
      · exact (holds.stored q).mp ⟨unit, mem, path⟩
  cases role with
  | dependency =>
    exact { holds with stored, role := fun other mem => by simp [holds.role other mem] }
  | primary =>
    -- What becomes of a unit.
    let change (other : SourceUnit) : SourceUnit :=
      if other.path.same canonical then { other with role := .primary } else other
    have keepsPath (other : SourceUnit) : (change other).path = other.path := by
      dsimp only [change]
      split <;> rfl
    have keepsContent (other : SourceUnit) : (change other).content = other.content := by
      dsimp only [change]
      split <;> rfl
    have get? (q : Path) : (store.promote canonical .primary).get? q = (store.get? q).map change := by
      have same : (fun other : SourceUnit => other.path.same q) ∘ change = fun other => other.path.same q := by
        funext other
        rw [Function.comp_apply, keepsPath]
      show (store.units.map change).find? _ = (store.units.find? _).map change
      rw [List.find?_map, same]
    have all {P : SourceUnit → Prop} (each : ∀ other ∈ store.units, P (change other)) :
        ∀ other ∈ (store.promote canonical .primary).units, P other := by
      intro other mem
      obtain ⟨old, listed, rfl⟩ := List.mem_map.mp mem
      exact each old listed
    have paths (q : Path) : (∃ other ∈ (store.promote canonical .primary).units, other.path = q) ↔
        ∃ other ∈ store.units, other.path = q := by
      show (∃ other ∈ store.units.map change, other.path = q) ↔ _
      simp [keepsPath]
    refine ⟨all fun other mem => ?_, all fun other mem => ?_, all fun other mem => ?_, all fun other mem => ?_,
      fun q => (paths q).trans (stored q), fun key q there => (paths q).mpr (holds.aliases key q there)⟩
    · rw [keepsPath, get?, holds.own other mem, Option.map_some]
    · rw [keepsPath]
      exact holds.canonical other mem
    · rw [keepsPath, keepsContent]
      exact holds.content other mem
    · rw [keepsPath]
      by_cases same : other.path.same canonical = true
      · have primary : (change other).role = .primary := congrArg SourceUnit.role (if_pos same)
        simp [primary, holds.eq_of_same rooted mem found same]
      · have differs : other.path ≠ canonical := fun equal => same (by rw [equal, canonical.same_refl])
        have kept : change other = other := if_neg same
        simp [kept, holds.role other mem, differs]

theorem Holds.add (holds : Holds tree constants returned store) (rooted : tree.Rooted)
    (constants' : store.constants = constants) {p canonical : Path} {text : String}
    (found : read tree p = .ok (canonical, text)) (role : Role) :
    Holds tree constants (fun role' q => returned role' q ∨ role' = role ∧ q = canonical)
      (store.add canonical text role) := by
  cases there : store.get? canonical with
  | none => exact holds.add_new rooted constants' found role there
  | some unit =>
    rw [add_eq_promote (by rw [there]; rfl)]
    exact holds.promote rooted found role there

theorem Holds.addAll (holds : Holds tree constants returned store) (rooted : tree.Rooted)
    (constants' : store.constants = constants) {files : List (Path × String)}
    (found : ∀ file ∈ files, ∃ p, read tree p = .ok file) (role : Role) :
    Holds tree constants (fun role' q => returned role' q ∨ role' = role ∧ q ∈ files.map (·.1))
      (store.addAll role files) := by
  induction files generalizing store returned with
  | nil => exact holds.congr fun role' q => by simp
  | cons file rest ih =>
    obtain ⟨canonical, text⟩ := file
    obtain ⟨p, here⟩ := found (canonical, text) (by simp)
    have added := holds.add rooted constants' here role
    have rest := ih added ((store.constants_add ..).trans constants') fun file mem => found file (by simp [mem])
    exact rest.congr fun role' q => by simp [or_assoc, and_or_left]

/-- Only units and aliases matter. -/
theorem Holds.of_units {other : SourceStore} (holds : Holds tree constants returned store)
    (units : other.units = store.units)
    (aliases : ∀ key p, other.aliases.get? key = some p → ∃ unit ∈ store.units, unit.path = p) :
    Holds tree constants returned other := by
  have get? : other.get? = store.get? := by
    funext p
    rw [SourceStore.get?, units]
    rfl
  exact ⟨by rw [units, get?]; exact holds.own, by rw [units]; exact holds.canonical, by rw [units]; exact holds.content,
    by rw [units]; exact holds.role, by rw [units]; exact holds.stored, by rw [units]; exact aliases⟩

/-- One call. -/
theorem Holds.after (holds : Holds tree constants returned store) (faithful : Faithful tree base constants calls store)
    (rooted : tree.Rooted) (call : Call) :
    Holds tree constants
      (fun role p => returned role p ∨ call.role = role ∧ ∃ paths, call.answers tree store = .ok paths ∧ p ∈ paths)
      (store.after tree call) := by
  cases faithful.does rooted.proper call with
  | fails e _ answers units aliases =>
    have same := holds.of_units units (by rw [aliases]; exact holds.aliases)
    exact same.congr fun role p => by simp [answers]
  | knows key p known role answers after =>
    obtain ⟨unit, mem, path⟩ := holds.aliases key p known
    have found : store.unit p = .ok unit := unit_eq_ok_iff.mpr (path ▸ holds.own unit mem)
    have answered : call.answers tree store = .ok [p] := by rw [answers, found, Except.map, path]
    rw [after]
    refine { holds with role := fun other listed => ?_, stored := fun q => ?_ }
    · simp [holds.role other listed, role]
    · rw [holds.stored]
      constructor
      · rintro ⟨role', before⟩
        exact ⟨role', .inl before⟩
      · rintro ⟨role', before | ⟨_, paths, same, listed⟩⟩
        · exact ⟨role', before⟩
        · rw [answered] at same
          cases same
          rw [List.mem_singleton.mp listed]
          exact (holds.stored p).mp ⟨unit, mem, path⟩
  | adds files found answers units _ aliases =>
    have added := holds.addAll rooted faithful.sameConstants found call.role
    have leads : ∀ key p, (store.after tree call).aliases.get? key = some p →
        ∃ unit ∈ (store.addAll call.role files).units, unit.path = p := by
      intro key p there
      rw [added.stored]
      rcases aliases key p there with old | new
      · obtain ⟨role', before⟩ := (holds.stored p).mp (holds.aliases key p old)
        exact ⟨role', .inl before⟩
      · exact ⟨call.role, .inr ⟨rfl, new⟩⟩
    refine (added.of_units units leads).congr fun role p => ?_
    simp only [answers, Except.ok.injEq, exists_eq_left', mem_addNew_of_read rooted.proper found]
    rw [eq_comm]

end

/-! ## Any calls -/

theorem returned_concat (call : Call) (role : Role) (p : Path) :
    Returned tree base constants (calls ++ [call]) role p ↔ Returned tree base constants calls role p ∨
      call.role = role ∧ ∃ paths, call.answers tree (afterAll tree base constants calls) = .ok paths ∧ p ∈ paths := by
  unfold Returned
  simp only [List.prefix_concat_iff]
  constructor
  · rintro ⟨before, last, whole | part, gives⟩
    · obtain ⟨rfl, same⟩ := List.append_inj' whole rfl
      cases same
      exact .inr gives
    · exact .inl ⟨before, last, part, gives⟩
  · rintro (⟨before, last, part, gives⟩ | gives)
    · exact ⟨before, last, .inr part, gives⟩
    · exact ⟨calls, call, .inl rfl, gives⟩

theorem afterAll_concat (calls : List Call) (call : Call) :
    afterAll tree base constants (calls ++ [call]) = (afterAll tree base constants calls).after tree call :=
  List.foldl_concat ..

/-- A store holds the files that the calls so far returned. -/
theorem holds_afterAll (rooted : tree.Rooted) (base : Path) (constants : Dict String) (calls : List Call) :
    Holds tree constants (Returned tree base constants calls) (afterAll tree base constants calls) := by
  induction calls using List.reverseRecOn with
  | nil =>
    have nothing (role : Role) (p : Path) : ¬Returned tree base constants [] role p := by
      rintro ⟨before, call, part, _⟩
      simp at part
    exact ⟨nofun, nofun, nofun, nofun, by simp [nothing, afterAll, new], nofun⟩
  | append_singleton calls call ih =>
    rw [afterAll_concat]
    exact (ih.after (faithful_afterAll rooted.proper calls) rooted call).congr fun role p =>
      (returned_concat call role p).symm

/-- An alias stays what it is. -/
theorem aliases_afterAll (proper : tree.workingDirectory.Proper) (more : List Call) {key : String} {p : Path}
    (known : (afterAll tree base constants calls).aliases.get? key = some p) :
    (afterAll tree base constants (calls ++ more)).aliases.get? key = some p := by
  induction more using List.reverseRecOn with
  | nil => rwa [List.append_nil]
  | append_singleton more call ih =>
    rw [← List.append_assoc, afterAll_concat]
    cases (faithful_afterAll proper (calls ++ more)).does proper call with
    | fails e _ _ _ aliases => rwa [aliases]
    | knows _ _ _ _ _ after => rwa [after]
    | adds files _ _ _ keeps _ => exact keeps key p ih

/-- A call that fails does so before anything is added. -/
theorem units_of_fails (rooted : tree.Rooted) (calls : List Call) {call : Call} {e : Error}
    (fails : call.answers tree (afterAll tree base constants calls) = .error e) :
    call.readings tree (afterAll tree base constants calls) = .error e ∧
      (afterAll tree base constants (calls ++ [call])).units = (afterAll tree base constants calls).units ∧
      (afterAll tree base constants (calls ++ [call])).aliases = (afterAll tree base constants calls).aliases := by
  rw [afterAll_concat]
  cases (faithful_afterAll rooted.proper calls).does rooted.proper call with
  | fails e' readings answers units aliases =>
    rw [answers] at fails
    cases fails
    exact ⟨readings, units, aliases⟩
  | knows key p known role answers after =>
    have holds := holds_afterAll rooted base constants calls
    obtain ⟨unit, mem, path⟩ := holds.aliases key p known
    rw [answers, unit_eq_ok_iff.mpr (path ▸ holds.own unit mem)] at fails
    cases fails
  | adds files _ answers =>
    rw [answers] at fails
    cases fails

/-- The paths that are selected are the canonical ones, without repetitions, in the order of first occurrences. -/
theorem answers_loadPrimaries {paths chosen : List Path}
    (succeeds : (Call.loadPrimaries paths).answers tree store = .ok chosen) :
    ∃ canonicals, List.Forall₂ (fun p canonical => tree.canonical p = .ok canonical) paths canonicals ∧
      chosen = canonicals.eraseDupsBy Path.same ∧ chosen.Nodup := by
  obtain ⟨⟨_, loaded⟩, here, rfl⟩ := map_eq_ok_iff.mp succeeds
  obtain ⟨files, reads, same⟩ := bind_eq_ok_iff.mp here
  cases same
  rw [mapM_eq_ok_iff] at reads
  have collected : files.foldl (fun found (p, _) => if found.any (·.same p) then found else found ++ [p]) [] =
      Workspace.addNew [] (files.map (·.1)) := by
    rw [Workspace.addNew, List.foldl_map]
  refine ⟨files.map (·.1), ?_, ?_, ?_⟩
  · rw [List.forall₂_map_right_iff]
    exact reads.imp fun p file found => (read_eq_ok_iff.mp found).1
  · exact collected.trans (Workspace.addNew_nil _)
  · show (files.foldl _ []).Nodup
    rw [collected]
    refine (Workspace.pairwise_addNew _).imp fun {p q} differs equal => ?_
    rw [equal, Path.same_refl] at differs
    cases differs

/-- Whatever the calls on a store, successful or not: it holds the files that they returned, each under its canonical
path and with constants substituted, as a primary one exactly if it was selected; aliases lead to units and stay; and
a call that fails changes neither units nor aliases. -/
theorem store_holds_returned (rooted : tree.Rooted) (base : Path) (constants : Dict String) (calls : List Call) :
    Holds tree constants (Returned tree base constants calls) (afterAll tree base constants calls) ∧
      (∀ more key p, (afterAll tree base constants calls).aliases.get? key = some p →
        (afterAll tree base constants (calls ++ more)).aliases.get? key = some p) ∧
      (∀ call e, call.answers tree (afterAll tree base constants calls) = .error e →
        call.readings tree (afterAll tree base constants calls) = .error e ∧
          (afterAll tree base constants (calls ++ [call])).units = (afterAll tree base constants calls).units ∧
          (afterAll tree base constants (calls ++ [call])).aliases = (afterAll tree base constants calls).aliases) ∧
      ∀ paths chosen, (Call.loadPrimaries paths).answers tree (afterAll tree base constants calls) = .ok chosen →
        ∃ canonicals, List.Forall₂ (fun p canonical => tree.canonical p = .ok canonical) paths canonicals ∧
          chosen = canonicals.eraseDupsBy Path.same ∧ chosen.Nodup :=
  ⟨holds_afterAll rooted base constants calls, fun more _ _ known => aliases_afterAll rooted.proper more known,
    fun _ _ fails => units_of_fails rooted calls fails, fun _ _ succeeds => answers_loadPrimaries succeeds⟩

namespace Linked

/-- Two sources, a link to the second one, and a file that is no text. -/
def project : FileTree :=
  ⟨[(["p"], .directory), (["p", "A.sol"], .file (.text "contract A {}\n")),
    (["p", "X.sol"], .file (.text "uint constant SIZE = 1;\n")), (["p", "link"], .link (.ofText "X.sol")),
    (["p", "bad.sol"], .file (.binary [255]))], [], by decide⟩

def root : Path := .ofText "/p"

def sizes : Dict String := .ofList [("SIZE", "2")]

/-- The second source is imported; selecting the first one fails because of the file that is no text; then the
second one is selected through the link. -/
def requests : List Call :=
  [.resolve "./X.sol" root, .loadPrimaries [root.child "A.sol", root.child "bad.sol"], .loadPrimary (root.child "link")]

theorem rooted : project.Rooted := ⟨nofun, project.isOpen_root⟩

end Linked

open Linked in
/-- A file that is imported first becomes a primary one, and nothing is left of a call that fails. -/
theorem store_holds_returned_linked :
    project.Rooted ∧
      (afterAll project root sizes requests).units =
        [⟨.ofText "/p/X.sol", "uint constant SIZE = 2;\n", .primary⟩] ∧
      Returned project root sizes requests .primary (.ofText "/p/X.sol") ∧
      ¬∃ role, Returned project root sizes requests role (.ofText "/p/A.sol") := by
  have units : (afterAll project root sizes requests).units =
      [⟨.ofText "/p/X.sol", "uint constant SIZE = 2;\n", .primary⟩] := by decide +kernel
  obtain ⟨holds, _⟩ := store_holds_returned rooted root sizes requests
  refine ⟨rooted, units, ?_, fun returned => ?_⟩
  · exact (holds.role _ (by rw [units]; exact List.mem_singleton_self _)).mp rfl
  · obtain ⟨unit, mem, path⟩ := (holds.stored _).mpr returned
    rw [units, List.mem_singleton] at mem
    rw [mem] at path
    exact absurd path (by decide)

end SourceStore

end SolidityBuild
