import SolidityBuild.Proofs.Resolution
import SolidityBuild.Proofs.SourceLoading
import Mathlib.Data.List.Induction

/-!
# What references lead to over time

A store remembers where a reference led to under a key, and two references may have one key although they
lead to different files. The answer to a reference is that of a new store, unless an earlier reference had
the same key and was found: then it is what that one led to (`resolve_afterAll`). Nothing else in a store
has any influence: neither the files that are loaded nor the roles that they have.
-/

namespace SolidityBuild

/-! ## Canonical paths -/

/-- A location all of whose names can name entries. -/
def Location.Proper (location : Location) : Prop := ∀ name ∈ location, Path.IsName name

theorem Location.components_path {location : Location} (proper : location.Proper) :
    location.path.components = .root :: location.map .name := by
  have names : location.filterMap Path.component? = location.map .name := by
    rw [← List.filterMap_eq_map]
    refine List.filterMap_congr fun name mem => ?_
    simp [Path.component?, (proper name mem).1, (proper name mem).2]
  cases location with
  | nil => rfl
  | cons name rest =>
    have segments : Location.path (name :: rest) = ⟨"" :: name :: rest⟩ := by
      simp [Location.path, Path.ofComponents, Path.Component.segment, Function.comp_def]
    rw [segments]
    exact congrArg (Path.Component.root :: ·) names

/-- Proper locations are told apart by the places of their paths. -/
theorem Location.eq_of_same {location other : Location} (proper : location.Proper) (proper' : other.Proper)
    (same : location.path.same other.path = true) : location = other := by
  simp only [Path.same, components_path proper, components_path proper', decide_eq_true_eq, List.cons.injEq,
    true_and] at same
  exact List.map_injective_iff.mpr (fun _ _ equal => Path.Component.name.inj equal) same

namespace FileTree

theorem follow_proper {tree : FileTree} {onLink : Location → Path → List String → Except Fault Place}
    {location : Location}
    (beyond : ∀ {directory target rest}, directory.Proper → onLink directory target rest = .ok (.taken location) →
      location.Proper)
    {directory : Location} {segments : List String} (proper : directory.Proper)
    (leads : follow tree onLink directory segments = .ok (.taken location)) : location.Proper := by
  induction segments generalizing directory with
  | nil => cases leads; exact proper
  | cons segment rest ih =>
    unfold follow at leads
    split at leads
    · exact ih proper leads
    next notVoid =>
    split at leads
    · exact ih (fun name mem => proper name (List.dropLast_subset _ mem)) leads
    next notUp =>
    have inside : (directory ++ [segment] : Location).Proper := by
      intro name mem
      rcases List.mem_append.mp mem with above | last
      · exact proper name above
      · rw [List.mem_singleton.mp last]
        exact ⟨Bool.eq_false_iff.mpr notVoid, notUp⟩
    split at leads
    · split at leads <;> cases leads
    · exact ih inside leads
    · split at leads
      · cases leads; exact inside
      · cases leads
    · exact beyond proper leads

theorem locate_proper {tree : FileTree} (proper : tree.workingDirectory.Proper) {p : Path} {location : Location}
    (found : tree.locate p = .ok location) : location.Proper := by
  have start {directory : Location} (target : Path) (proper : directory.Proper) : (start directory target).Proper := by
    unfold FileTree.start
    split
    · exact fun _ mem => by cases mem
    · exact proper
  have beyond : ∀ links {directory segments}, directory.Proper →
      followLinks tree links directory segments = .ok (.taken location) → location.Proper := by
    intro links
    induction links with
    | zero => exact follow_proper fun _ stops => by cases stops
    | succ links ih => exact follow_proper fun proper => ih (start _ proper)
  unfold locate place at found
  split at found
  · next leads =>
    cases found
    split at leads
    · cases leads
    split at leads
    · cases leads
    · exact beyond _ (start p proper) leads
  · cases found
  · cases found

end FileTree

namespace SourceStore

/-! ## Calls -/

/-- A call on a store. -/
inductive Call where
  | loadPrimary (p : Path)
  | loadPrimaries (paths : List Path)
  | resolve (reference : String) (directory : Path)

variable {tree : FileTree} {base : Path} {constants : Dict String}

/-- The store that loading leaves; it is as it was if that fails. -/
def left {α : Type} (store : SourceStore) : Result (α × SourceStore) → SourceStore
  | .ok (_, loaded) => loaded
  | .error _ => store

/-- The store after a call. -/
def after (tree : FileTree) (store : SourceStore) : Call → SourceStore
  | .loadPrimary p => store.left (store.loadPrimary tree p)
  | .loadPrimaries paths => store.left (store.loadPrimaries tree paths)
  | .resolve reference directory => (store.resolve tree reference directory).2

/-- A new store after some calls. -/
def afterAll (tree : FileTree) (base : Path) (constants : Dict String) (calls : List Call) : SourceStore :=
  calls.foldl (after tree) (new base constants)

/-- The file that a reference led to, by its path and its content. -/
def answer (result : Result SourceUnit) : Result (Path × String) := result.map fun unit => (unit.path, unit.content)

/-- The answer of a new store. -/
def fresh (tree : FileTree) (base : Path) (constants : Dict String) (reference : String) (directory : Path) :
    Result (Path × String) :=
  answer ((new base constants).resolve tree reference directory).1

/-- What a call finds under a key in a new store. -/
def Call.finds (tree : FileTree) (base : Path) (constants : Dict String) (key : String) : Call → Option (Path × String)
  | .resolve reference directory =>
    if requestKey reference directory = key then (fresh tree base constants reference directory).toOption else none
  | _ => none

/-- What the first call that finds something under a key finds. -/
def remembered (tree : FileTree) (base : Path) (constants : Dict String) (calls : List Call) (key : String) :
    Option (Path × String) :=
  calls.findSome? (Call.finds tree base constants key)

theorem remembered_concat (calls : List Call) (call : Call) (key : String) :
    remembered tree base constants (calls ++ [call]) key =
      (remembered tree base constants calls key).or (call.finds tree base constants key) := by
  unfold remembered
  rw [List.findSome?_append, List.findSome?_singleton]

/-! ## Faithful stores -/

/-- A store holds what the tree and the references looked up so far tell. -/
structure Faithful (tree : FileTree) (base : Path) (constants : Dict String) (calls : List Call) (store : SourceStore) :
    Prop where
  sameBase : store.base = base
  sameConstants : store.constants = constants
  surveyed : store.Surveyed tree
  /-- Every unit is a file of the tree, with constants substituted. -/
  units : ∀ unit ∈ store.units, ∃ location : Location, location.Proper ∧ unit.path = location.path ∧
    ∃ text, tree.readText unit.path = .ok text ∧ unit.content = Source.Constant.substitute constants text
  aliases : ∀ key, (store.aliases.get? key).map store.file? = (remembered tree base constants calls key).map some

theorem faithful_new : Faithful tree base constants [] (new base constants) :=
  ⟨rfl, rfl, nofun, nofun, fun _ => rfl⟩

/-- The text of a file as it is stored. -/
def source (tree : FileTree) (constants : Dict String) (p : Path) : Result (Path × String) :=
  (read tree p).map fun (canonical, text) => (canonical, Source.Constant.substitute constants text)

theorem read_eq_ok_iff {p canonical : Path} {text : String} :
    read tree p = .ok (canonical, text) ↔ tree.canonical p = .ok canonical ∧ tree.readText canonical = .ok text := by
  unfold read
  split
  · next fails => simp [fails]
  next found leads =>
  rw [leads]
  split
  · next fails =>
    simp only [reduceCtorEq, Except.ok.injEq, false_iff, not_and]
    rintro rfl
    simp [fails]
  · next text' reads =>
    simp only [Except.ok.injEq, Prod.mk.injEq]
    refine and_congr_right fun same => ?_
    rw [← same, reads, Except.ok.injEq]

theorem exists_location_of_canonical (proper : tree.workingDirectory.Proper) {p canonical : Path}
    (found : tree.canonical p = .ok canonical) : ∃ location : Location, location.Proper ∧ canonical = location.path := by
  obtain ⟨location, leads, rfl⟩ := map_eq_ok_iff.mp found
  exact ⟨location, FileTree.locate_proper proper leads, rfl⟩

section

variable {calls : List Call} {store : SourceStore}

/-- What is stored under a canonical path is the file that is there. -/
theorem Faithful.get?_eq_some (faithful : Faithful tree base constants calls store) (proper : tree.workingDirectory.Proper)
    {p canonical : Path} (found : tree.canonical p = .ok canonical) {unit : SourceUnit}
    (there : store.get? canonical = some unit) :
    unit.path = canonical ∧ ∃ text, tree.readText canonical = .ok text ∧
      unit.content = Source.Constant.substitute constants text := by
  obtain ⟨location, isProper, path, text, read, content⟩ := faithful.units unit (List.mem_of_find?_eq_some there)
  obtain ⟨location', isProper', rfl⟩ := exists_location_of_canonical proper found
  have same := same_of_get? there
  rw [path] at same
  rw [Location.eq_of_same isProper isProper' same] at path
  rw [path] at read
  exact ⟨path, text, read, content⟩

/-- Loading is reading and adding. -/
theorem Faithful.load_eq (faithful : Faithful tree base constants calls store) (proper : tree.workingDirectory.Proper)
    (p : Path) (role : Role) :
    store.load tree p role = (read tree p).map fun (canonical, text) => (canonical, store.add canonical text role) := by
  unfold load read
  cases found : tree.canonical p with
  | error fault => rfl
  | ok canonical =>
    dsimp only
    cases there : store.get? canonical with
    | none => cases tree.readText canonical <;> rfl
    | some unit =>
      -- A stored file is not read again; the text that it was made from is still there.
      obtain ⟨_, text, read, _⟩ := faithful.get?_eq_some proper found there
      rw [read]
      have known : (store.get? canonical).isSome = true := by rw [there]; rfl
      simp only [Except.map, add_eq_promote known]

theorem Faithful.file?_add (faithful : Faithful tree base constants calls store) (proper : tree.workingDirectory.Proper)
    {p canonical : Path} {text : String} (found : read tree p = .ok (canonical, text)) (role : Role) :
    (store.add canonical text role).file? canonical = some (canonical, Source.Constant.substitute constants text) := by
  obtain ⟨leads, reads⟩ := read_eq_ok_iff.mp found
  rw [SourceStore.file?_add, file?]
  cases there : store.get? canonical with
  | none => simp [Path.same_refl, faithful.sameConstants]
  | some unit =>
    obtain ⟨path, text', reads', content⟩ := faithful.get?_eq_some proper leads there
    rw [reads] at reads'
    cases reads'
    simp [path, content]

theorem map_file?_of_retains {after : SourceStore} (retains : store.Retains after) {place : Option Path}
    {file : Option (Path × String)} (found : place.map store.file? = file.map some) :
    place.map after.file? = file.map some := by
  cases place with
  | none => exact found
  | some p =>
    obtain ⟨there, rfl, same⟩ := Option.map_eq_some_iff.mp found.symm
    rw [Option.map_some, Option.map_some, retains same.symm]

/-- Adding a file of the tree keeps a store faithful. -/
theorem Faithful.add (faithful : Faithful tree base constants calls store) (proper : tree.workingDirectory.Proper)
    {p canonical : Path} {text : String} (found : read tree p = .ok (canonical, text)) (role : Role) :
    Faithful tree base constants calls (store.add canonical text role) := by
  have same := store.add_eq canonical text role
  refine ⟨?_, ?_, ?_, fun unit mem => ?_, fun key => ?_⟩
  · rw [same]; exact faithful.sameBase
  · rw [same]; exact faithful.sameConstants
  · rw [same]; exact faithful.surveyed
  · rcases mem_units_add mem with ⟨old, listed, path, content⟩ | ⟨path, content⟩
    · rw [path, content]
      exact faithful.units old listed
    · obtain ⟨leads, reads⟩ := read_eq_ok_iff.mp found
      obtain ⟨location, isProper, there⟩ := exists_location_of_canonical proper leads
      rw [path, content, faithful.sameConstants]
      exact ⟨location, isProper, there, text, reads, rfl⟩
  · have kept := map_file?_of_retains (store.retains_add canonical text role) (faithful.aliases key)
    have aliases : (store.add canonical text role).aliases = store.aliases := by rw [same]
    rwa [aliases]

theorem Faithful.locate (faithful : Faithful tree base constants calls store) (reference : String) (directory : Path) :
    Faithful tree base constants calls (store.locate tree reference directory).2 := by
  have surveyed := faithful.surveyed.locate_snd reference directory
  obtain ⟨vendored, same, _⟩ := store.locate_snd tree reference directory
  rw [same] at surveyed ⊢
  exact { faithful with surveyed }

/-! ## Resolving -/

theorem answer_unit {p : Path} {file : Path × String} (there : store.file? p = some file) :
    answer (store.unit p) = .ok file := by
  obtain ⟨unit, found, rfl⟩ := Option.map_eq_some_iff.mp there
  rw [unit_eq_ok_iff.mpr found]
  rfl

/-- What a reference leads to, if nothing is remembered. -/
def lookUp (tree : FileTree) (base : Path) (constants : Dict String) (reference : String) (directory : Path) :
    Result (Path × String) :=
  match search tree base reference directory with
  | .error searched => .error (.sourceNotFound reference none searched)
  | .ok file => source tree constants file

/-- Under a key that is not remembered, a reference is looked up; if it is found, its file is loaded and
remembered. -/
theorem Faithful.resolve_of_new (faithful : Faithful tree base constants calls store)
    (proper : tree.workingDirectory.Proper) {reference : String} {directory : Path}
    (new : store.aliases.get? (requestKey reference directory) = none) :
    answer (store.resolve tree reference directory).1 = lookUp tree base constants reference directory ∧
      match lookUp tree base constants reference directory with
      | .error _ => Faithful tree base constants calls (store.resolve tree reference directory).2
      | .ok file => ∃ loaded, Faithful tree base constants calls loaded ∧ loaded.file? file.1 = some file ∧
          (store.resolve tree reference directory).2 = loaded.remember (requestKey reference directory) file.1 := by
  have found := faithful.surveyed.locate_fst reference directory
  have located := faithful.locate reference directory
  rw [faithful.sameBase] at found
  unfold SourceStore.resolve lookUp
  dsimp only
  rw [new, ← found]
  generalize store.locate tree reference directory = outcome at located
  obtain ⟨result, located'⟩ := outcome
  cases result with
  | error searched => exact ⟨rfl, located⟩
  | ok file =>
    dsimp only at located ⊢
    rw [located.load_eq proper, source]
    cases reads : read tree file with
    | error e => exact ⟨rfl, located⟩
    | ok place =>
      obtain ⟨canonical, text⟩ := place
      have there := located.file?_add proper reads .dependency
      exact ⟨answer_unit there, _, located.add proper reads .dependency, there, rfl⟩

theorem fresh_eq (proper : tree.workingDirectory.Proper) (reference : String) (directory : Path) :
    fresh tree base constants reference directory = lookUp tree base constants reference directory :=
  (faithful_new.resolve_of_new proper rfl).1

/-- Resolving a reference answers what was found first under its key, or else what a new store answers; either
way the store stays faithful. -/
theorem Faithful.resolve (faithful : Faithful tree base constants calls store) (proper : tree.workingDirectory.Proper)
    (reference : String) (directory : Path) :
    Faithful tree base constants (calls ++ [.resolve reference directory]) (store.resolve tree reference directory).2 ∧
      answer (store.resolve tree reference directory).1 =
        match remembered tree base constants calls (requestKey reference directory) with
        | some file => .ok file
        | none => fresh tree base constants reference directory := by
  have remembers := faithful.aliases (requestKey reference directory)
  cases known : store.aliases.get? (requestKey reference directory) with
  | some p =>
    rw [known] at remembers
    obtain ⟨file, first, there⟩ := Option.map_eq_some_iff.mp remembers.symm
    have answered : store.resolve tree reference directory = (store.unit p, store) := by
      unfold SourceStore.resolve
      dsimp only
      rw [known]
    rw [answered, first]
    refine ⟨{ faithful with aliases := fun key => ?_ }, answer_unit there.symm⟩
    rw [faithful.aliases, remembered_concat, Call.finds]
    split
    · next same => rw [← same, first, Option.some_or]
    · rw [Option.or_none]
  | none =>
    rw [known] at remembers
    have first : remembered tree base constants calls (requestKey reference directory) = none :=
      Option.map_eq_none_iff.mp remembers.symm
    obtain ⟨answered, left⟩ := faithful.resolve_of_new proper known
    rw [first, answered, fresh_eq proper]
    refine ⟨?_, rfl⟩
    cases found : lookUp tree base constants reference directory with
    | error e =>
      rw [found] at left
      refine { left with aliases := fun key => ?_ }
      rw [left.aliases, remembered_concat, Call.finds, fresh_eq proper, found]
      simp [Except.toOption]
    | ok file =>
      rw [found] at left
      obtain ⟨loaded, faithful', there, same⟩ := left
      rw [same]
      refine { faithful' with aliases := fun key => ?_ }
      -- The entry is the first one under its key, and under other keys nothing has changed.
      have insert : (loaded.remember (requestKey reference directory) file.1).aliases.get? key =
          if key = requestKey reference directory then some file.1 else loaded.aliases.get? key :=
        Dict.get?_insert ..
      have files : (loaded.remember (requestKey reference directory) file.1).file? = loaded.file? := rfl
      rw [insert, files, remembered_concat, Call.finds, fresh_eq proper, found]
      split
      · next here =>
        rw [here, first, if_pos rfl, Option.map_some, there]
        rfl
      · next other => rw [if_neg (Ne.symm other), Option.or_none, faithful'.aliases]

end

/-! ## Any calls -/

section

variable {calls : List Call} {store loaded : SourceStore}

theorem Faithful.loadPrimary (faithful : Faithful tree base constants calls store)
    (proper : tree.workingDirectory.Proper) {p : Path} {unit : SourceUnit}
    (succeeds : store.loadPrimary tree p = .ok (unit, loaded)) : Faithful tree base constants calls loaded := by
  obtain ⟨⟨canonical, added⟩, here, rest⟩ := bind_eq_ok_iff.mp succeeds
  obtain ⟨_, _, same⟩ := bind_eq_ok_iff.mp rest
  cases same
  rw [faithful.load_eq proper, map_eq_ok_iff] at here
  obtain ⟨⟨_, text⟩, reads, same⟩ := here
  cases same
  exact faithful.add proper reads .primary

theorem Faithful.loadPrimaries (faithful : Faithful tree base constants calls store)
    (proper : tree.workingDirectory.Proper) {paths chosen : List Path}
    (succeeds : store.loadPrimaries tree paths = .ok (chosen, loaded)) : Faithful tree base constants calls loaded := by
  obtain ⟨files, reads, same⟩ := bind_eq_ok_iff.mp succeeds
  cases same
  have all : ∀ file ∈ files, ∃ p, read tree p = .ok file := by
    intro file mem
    obtain ⟨p, _, found⟩ := mem_of_mem_of_mapM reads mem
    exact ⟨p, found⟩
  clear reads succeeds
  induction files generalizing store with
  | nil => exact faithful
  | cons file rest ih =>
    obtain ⟨p, found⟩ := all file (by simp)
    exact ih (faithful.add proper found .primary) fun other mem => all other (List.mem_cons_of_mem _ mem)

/-- Every call keeps a store faithful. -/
theorem Faithful.after (faithful : Faithful tree base constants calls store) (proper : tree.workingDirectory.Proper)
    (call : Call) : Faithful tree base constants (calls ++ [call]) (store.after tree call) := by
  have load {call : Call} (nothing : ∀ key, call.finds tree base constants key = none) {loaded : SourceStore}
      (faithful : Faithful tree base constants calls loaded) : Faithful tree base constants (calls ++ [call]) loaded :=
    { faithful with aliases := fun key => by rw [faithful.aliases, remembered_concat, nothing, Option.or_none] }
  cases call with
  | resolve reference directory => exact (faithful.resolve proper reference directory).1
  | loadPrimary p =>
    refine load (fun _ => rfl) ?_
    unfold SourceStore.after
    dsimp only
    cases succeeds : store.loadPrimary tree p with
    | error e => exact faithful
    | ok found => exact faithful.loadPrimary proper succeeds
  | loadPrimaries paths =>
    refine load (fun _ => rfl) ?_
    unfold SourceStore.after
    dsimp only
    cases succeeds : store.loadPrimaries tree paths with
    | error e => exact faithful
    | ok found => exact faithful.loadPrimaries proper succeeds

end

theorem faithful_afterAll (proper : tree.workingDirectory.Proper) (calls : List Call) :
    Faithful tree base constants calls (afterAll tree base constants calls) := by
  induction calls using List.reverseRecOn with
  | nil => exact faithful_new
  | append_singleton calls call ih =>
    unfold afterAll
    rw [List.foldl_concat]
    exact ih.after proper call

/-- After any calls a reference leads to what was found first under its key; if nothing was, it leads where it
leads in a new store, or fails with the same error. -/
theorem resolve_afterAll (proper : tree.workingDirectory.Proper) (calls : List Call) (reference : String)
    (directory : Path) :
    answer ((afterAll tree base constants calls).resolve tree reference directory).1 =
      match remembered tree base constants calls (requestKey reference directory) with
      | some file => .ok file
      | none => fresh tree base constants reference directory :=
  ((faithful_afterAll proper calls).resolve proper reference directory).2

/-- A reference leads where it leads in a new store exactly if the first of the earlier references that was found
under its key leads there too. Files that are loaded, and references under other keys, make no difference. -/
theorem resolve_eq_fresh_iff (proper : tree.workingDirectory.Proper) (calls : List Call) (reference : String)
    (directory : Path) :
    answer ((afterAll tree base constants calls).resolve tree reference directory).1 =
        fresh tree base constants reference directory ↔
      ∀ file, remembered tree base constants calls (requestKey reference directory) = some file →
        fresh tree base constants reference directory = .ok file := by
  rw [resolve_afterAll proper]
  cases remembered tree base constants calls (requestKey reference directory) with
  | none => simp
  | some file => simp [eq_comm]

/-- The first place where a reference is looked for. -/
def direct (base : Path) (reference : String) (directory : Path) : Path :=
  (if Source.Import.isRelative reference then directory.child reference else base.child reference).normalized

theorem search_of_direct {reference : String} {directory : Path}
    (there : tree.isFile (direct base reference directory) = true) :
    search tree base reference directory = .ok (direct base reference directory) := by
  have first : (candidates base reference directory).find? tree.isFile = some (direct base reference directory) :=
    List.find?_cons_of_pos there
  unfold search locate
  dsimp only [new]
  rw [first]

theorem fresh_of_direct (proper : tree.workingDirectory.Proper) {reference : String} {directory : Path}
    (there : tree.isFile (direct base reference directory) = true) :
    fresh tree base constants reference directory = source tree constants (direct base reference directory) := by
  have found : lookUp tree base constants reference directory =
      source tree constants (direct base reference directory) := by
    unfold lookUp
    rw [search_of_direct there]
  rw [fresh_eq proper, found]

/-- A reference that leads to the first place where it is looked for is not affected by earlier ones, if those
with the same key are looked for in that place first, too. -/
theorem resolve_eq_fresh_of_direct (proper : tree.workingDirectory.Proper) {calls : List Call} {reference : String}
    {directory : Path} (there : tree.isFile (direct base reference directory) = true)
    (agree : ∀ other directory', .resolve other directory' ∈ calls →
      requestKey other directory' = requestKey reference directory →
        direct base other directory' = direct base reference directory) :
    answer ((afterAll tree base constants calls).resolve tree reference directory).1 =
      fresh tree base constants reference directory := by
  rw [resolve_eq_fresh_iff proper]
  intro file first
  obtain ⟨call, mem, found⟩ := List.exists_of_findSome?_eq_some first
  cases call with
  | loadPrimary p => cases found
  | loadPrimaries paths => cases found
  | resolve other directory' =>
    rw [Call.finds] at found
    split at found
    · next key =>
      have same := agree other directory' mem key
      have led : fresh tree base constants other directory' = source tree constants (direct base other directory') :=
        fresh_of_direct proper (by rw [same]; exact there)
      rw [fresh_of_direct proper there, ← same, ← led]
      exact toOption_eq_some_iff.mp found
    · cases found

namespace Neighbours

/-- Two files of one name, of which the second is also in a place that is searched for all references. -/
def project : FileTree :=
  ⟨[(["p"], .directory), (["p", "contracts"], .directory),
    (["p", "contracts", "X.sol"], .file (.text "contract Near {}\n")),
    (["p", "X.sol"], .file (.text "contract Root {}\n"))], [], by decide⟩

def root : Path := .ofText "/p"

theorem proper : project.workingDirectory.Proper := fun _ mem => by cases mem

end Neighbours

/-- A reference that leads to a file of its own leads elsewhere after another one with the same key. -/
theorem resolve_ne_fresh_neighbours :
    requestKey "./X.sol" (.ofText "/p/a") = requestKey "../X.sol" (.ofText "/p/a/b") ∧
      fresh Neighbours.project Neighbours.root Dict.empty "../X.sol" (.ofText "/p/a/b") =
        .ok (.ofText "/p/X.sol", "contract Root {}\n") ∧
      answer ((afterAll Neighbours.project Neighbours.root Dict.empty [.resolve "./X.sol" (.ofText "/p/a")]).resolve
          Neighbours.project "../X.sol" (.ofText "/p/a/b")).1 ≠
        fresh Neighbours.project Neighbours.root Dict.empty "../X.sol" (.ofText "/p/a/b") := by
  have first : remembered Neighbours.project Neighbours.root Dict.empty [.resolve "./X.sol" (.ofText "/p/a")]
      (requestKey "../X.sol" (.ofText "/p/a/b")) = some (.ofText "/p/contracts/X.sol", "contract Near {}\n") := by
    decide +kernel
  have here : fresh Neighbours.project Neighbours.root Dict.empty "../X.sol" (.ofText "/p/a/b") =
      .ok (.ofText "/p/X.sol", "contract Root {}\n") := by decide +kernel
  refine ⟨by decide +kernel, here, fun same => ?_⟩
  have led := (resolve_eq_fresh_iff Neighbours.proper _ _ _).mp same _ first
  rw [here] at led
  exact absurd led (by decide)

end SourceStore

end SolidityBuild
