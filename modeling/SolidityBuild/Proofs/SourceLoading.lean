import SolidityBuild.Source.Store
import SolidityBuild.Proofs.Paths
import SolidityBuild.Proofs.Results

/-!
# What a store keeps

Looking for a reference changes nothing in a store but the memory of the vendored packages. Loading a file
adds it behind the others unless it is there, so every unit that a store has stays in it
(`retains_resolve`).
-/

namespace SolidityBuild.SourceStore

/-! ## Units -/

theorem unit_eq_ok_iff {store : SourceStore} {p : Path} {unit : SourceUnit} :
    store.unit p = .ok unit ↔ store.get? p = some unit := by
  unfold SourceStore.unit
  cases store.get? p <;> simp

theorem get?_congr (store : SourceStore) {p q : Path} (same : p.same q = true) : store.get? p = store.get? q := by
  simp only [get?, Path.same_right same]

/-- A unit is stored under its own path. -/
theorem same_of_get? {store : SourceStore} {p : Path} {unit : SourceUnit} (found : store.get? p = some unit) :
    unit.path.same p = true := by
  simpa using List.find?_some found

/-- The path and the content of the unit stored under a path. -/
def file? (store : SourceStore) (p : Path) : Option (Path × String) :=
  (store.get? p).map fun unit => (unit.path, unit.content)

/-- All units of a store are in another one, with the same contents; their roles may differ. -/
def Retains (store after : SourceStore) : Prop := ∀ ⦃p file⦄, store.file? p = some file → after.file? p = some file

theorem Retains.refl (store : SourceStore) : store.Retains store := fun _ _ found => found

theorem Retains.trans {store middle after : SourceStore} (first : store.Retains middle)
    (second : middle.Retains after) : store.Retains after := fun _ _ found => second (first found)

theorem Retains.exists_get? {store after : SourceStore} (retains : store.Retains after) {p : Path} {unit : SourceUnit}
    (found : store.get? p = some unit) :
    ∃ unit', after.get? p = some unit' ∧ unit'.path = unit.path ∧ unit'.content = unit.content := by
  have file : store.file? p = some (unit.path, unit.content) := by rw [file?, found, Option.map_some]
  obtain ⟨unit', found', same⟩ := Option.map_eq_some_iff.mp (retains file)
  exact ⟨unit', found', congrArg Prod.fst same, congrArg Prod.snd same⟩

/-! ## Loading -/

theorem file?_promote (store : SourceStore) (p : Path) (role : Role) (q : Path) :
    (store.promote p role).file? q = store.file? q := by
  cases role with
  | dependency => rfl
  | primary =>
    have path (unit : SourceUnit) :
        (if unit.path.same p then { unit with role := .primary } else unit).path = unit.path := by
      split <;> rfl
    have content (unit : SourceUnit) :
        (if unit.path.same p then { unit with role := .primary } else unit).content = unit.content := by
      split <;> rfl
    simp [promote, file?, get?, List.find?_map, Function.comp_def, path, content]

/-- A file that is added is found under its path, unless one of its place was there before. -/
theorem file?_add (store : SourceStore) (p : Path) (text : String) (role : Role) (q : Path) :
    (store.add p text role).file? q =
      (store.file? q).or (if p.same q then some (p, Source.Constant.substitute store.constants text) else none) := by
  unfold add
  split
  · next unit there =>
    rw [file?_promote]
    split
    · next same =>
      rw [file?, ← store.get?_congr same, there]
      rfl
    · rw [Option.or_none]
  · simp only [file?, get?, List.find?_append, List.find?_singleton, Option.map_or]
    split <;> rfl

theorem retains_add (store : SourceStore) (p : Path) (text : String) (role : Role) :
    store.Retains (store.add p text role) := by
  intro q file found
  rw [file?_add, found, Option.some_or]

theorem retains_remember (store : SourceStore) (key : String) (p : Path) : store.Retains (store.remember key p) :=
  fun _ _ found => found

theorem add_eq (store : SourceStore) (p : Path) (text : String) (role : Role) :
    store.add p text role = { store with units := (store.add p text role).units } := by
  unfold add promote
  cases store.get? p <;> cases role <;> rfl

theorem mem_units_add {store : SourceStore} {p : Path} {text : String} {role : Role} {unit : SourceUnit}
    (mem : unit ∈ (store.add p text role).units) :
    (∃ old ∈ store.units, unit.path = old.path ∧ unit.content = old.content) ∨
      unit.path = p ∧ unit.content = Source.Constant.substitute store.constants text := by
  unfold add at mem
  split at mem
  · cases role with
    | dependency => exact .inl ⟨unit, mem, rfl, rfl⟩
    | primary =>
      obtain ⟨old, listed, rfl⟩ := List.mem_map.mp mem
      refine .inl ⟨old, listed, ?_⟩
      split <;> exact ⟨rfl, rfl⟩
  · rcases List.mem_append.mp mem with old | new
    · exact .inl ⟨unit, old, rfl, rfl⟩
    · rw [List.mem_singleton.mp new]
      exact .inr ⟨rfl, rfl⟩

theorem add_eq_promote {store : SourceStore} {p : Path} (there : (store.get? p).isSome = true) (text : String)
    (role : Role) : store.add p text role = store.promote p role := by
  obtain ⟨unit, found⟩ := Option.isSome_iff_exists.mp there
  unfold add
  rw [found]

/-- Loading adds the file under its canonical path; it is read if it is not there. -/
theorem load_eq_ok {store after : SourceStore} {tree : FileTree} {p canonical : Path} {role : Role}
    (loaded : store.load tree p role = .ok (canonical, after)) :
    tree.canonical p = .ok canonical ∧ ∃ text, after = store.add canonical text role ∧
      (store.get? canonical = none → tree.readText canonical = .ok text) := by
  unfold load at loaded
  split at loaded
  · cases loaded
  next found =>
  split at loaded
  · next there =>
    cases loaded
    exact ⟨found, "", (add_eq_promote (by simp [there]) _ _).symm, fun new => by simp [new] at there⟩
  split at loaded
  · cases loaded
  next text read =>
  cases loaded
  exact ⟨found, text, rfl, fun _ => read⟩

/-! ## References -/

/-- The file that a reference means, or the places that were searched, if nothing is remembered. -/
def search (tree : FileTree) (base : Path) (reference : String) (directory : Path) : Except (List Path) Path :=
  ((new base Dict.empty).locate tree reference directory).1

/-- Whether the vendored packages that a store remembers are those of a tree. -/
def Surveyed (store : SourceStore) (tree : FileTree) : Prop :=
  ∀ index, store.vendored = some index → index = Source.vendored tree store.base

theorem withVendored_snd (store : SourceStore) (tree : FileTree) :
    ∃ vendored, (store.withVendored tree).2 = { store with vendored } ∧
      (vendored = store.vendored ∨ vendored = some (Source.vendored tree store.base)) := by
  unfold withVendored
  split
  · exact ⟨store.vendored, rfl, .inl rfl⟩
  · exact ⟨_, rfl, .inr rfl⟩

/-- Looking for a reference at most remembers the vendored packages. -/
theorem locate_snd (store : SourceStore) (tree : FileTree) (reference : String) (directory : Path) :
    ∃ vendored, (store.locate tree reference directory).2 = { store with vendored } ∧
      (vendored = store.vendored ∨ vendored = some (Source.vendored tree store.base)) := by
  unfold locate
  dsimp only
  split
  · exact ⟨_, rfl, .inl rfl⟩
  split
  · exact ⟨_, rfl, .inl rfl⟩
  split
  · exact ⟨_, rfl, .inl rfl⟩
  · split <;> exact store.withVendored_snd tree

theorem Surveyed.locate_snd {store : SourceStore} {tree : FileTree} (surveyed : store.Surveyed tree)
    (reference : String) (directory : Path) : (store.locate tree reference directory).2.Surveyed tree := by
  obtain ⟨vendored, same, memory⟩ := store.locate_snd tree reference directory
  rw [same]
  intro index known
  rcases memory with rfl | rfl
  · exact surveyed index known
  · cases known
    rfl

/-- What a store remembers of the vendored packages does not change what is found. -/
theorem Surveyed.locate_fst {store : SourceStore} {tree : FileTree} (surveyed : store.Surveyed tree)
    (reference : String) (directory : Path) :
    (store.locate tree reference directory).1 = search tree store.base reference directory := by
  have vendored : (store.withVendored tree).1 = Source.vendored tree store.base := by
    unfold withVendored
    split
    · next index known => exact surveyed index known
    · rfl
  have base : (store.withVendored tree).2.base = store.base := by
    obtain ⟨_, same, _⟩ := store.withVendored_snd tree
    rw [same]
  unfold search locate
  dsimp only [new]
  split
  · rfl
  split
  · rfl
  split
  · rfl
  · rw [vendored, base]
    dsimp only [withVendored]
    split <;> rfl

theorem retains_locate (store : SourceStore) (tree : FileTree) (reference : String) (directory : Path) :
    store.Retains (store.locate tree reference directory).2 := by
  obtain ⟨vendored, same, _⟩ := store.locate_snd tree reference directory
  rw [same]
  exact fun _ _ found => found

theorem base_locate (store : SourceStore) (tree : FileTree) (reference : String) (directory : Path) :
    (store.locate tree reference directory).2.base = store.base := by
  obtain ⟨_, same, _⟩ := store.locate_snd tree reference directory
  rw [same]

/-- What resolving a reference leaves: nothing is looked for, or nothing is found or read, or a file is added and
remembered. -/
theorem resolve_snd (store : SourceStore) (tree : FileTree) (reference : String) (directory : Path) :
    (store.resolve tree reference directory).2 = store ∨
      (store.resolve tree reference directory).2 = (store.locate tree reference directory).2 ∨
      ∃ canonical text, (store.resolve tree reference directory).2 =
        ((store.locate tree reference directory).2.add canonical text .dependency).remember
          (requestKey reference directory) canonical := by
  unfold resolve
  dsimp only
  split
  · exact .inl rfl
  refine .inr ?_
  split
  · next same => exact .inl (by rw [same])
  next same =>
  rw [same]
  split
  · exact .inl rfl
  next canonical loaded here =>
  obtain ⟨_, text, added, _⟩ := load_eq_ok here
  exact .inr ⟨canonical, text, by rw [added]⟩

theorem base_resolve (store : SourceStore) (tree : FileTree) (reference : String) (directory : Path) :
    (store.resolve tree reference directory).2.base = store.base := by
  rcases store.resolve_snd tree reference directory with same | same | ⟨canonical, text, same⟩
  · rw [same]
  · rw [same, base_locate]
  · rw [same, add_eq, remember, base_locate]

/-- Resolving a reference takes no unit away and changes none. -/
theorem retains_resolve (store : SourceStore) (tree : FileTree) (reference : String) (directory : Path) :
    store.Retains (store.resolve tree reference directory).2 := by
  rcases store.resolve_snd tree reference directory with same | same | ⟨canonical, text, same⟩
  · rw [same]
    exact .refl store
  · rw [same]
    exact store.retains_locate tree reference directory
  · rw [same]
    have added := (store.retains_locate tree reference directory).trans (retains_add _ canonical text .dependency)
    exact added.trans (retains_remember _ _ canonical)

/-! ## Paths of loaded files -/

/-- Whether a file is loaded under just this path. -/
def Stores (store : SourceStore) (p : Path) : Prop := ∃ content, store.file? p = some (p, content)

variable {store after : SourceStore} {tree : FileTree} {p : Path} {unit : SourceUnit}

theorem Stores.of_retains (stores : store.Stores p) (retains : store.Retains after) : after.Stores p := by
  obtain ⟨content, found⟩ := stores
  exact ⟨content, retains found⟩

theorem stores_of_unit (found : store.unit p = .ok unit) : store.Stores unit.path := by
  have there := unit_eq_ok_iff.mp found
  refine ⟨unit.content, ?_⟩
  rw [file?, store.get?_congr (same_of_get? there), there]
  rfl

/-- A file that a reference leads to is loaded under its path. -/
theorem stores_of_resolve {reference : String} {directory : Path}
    (found : (store.resolve tree reference directory).1 = .ok unit) :
    (store.resolve tree reference directory).2.Stores unit.path := by
  unfold resolve at found ⊢
  dsimp only at found ⊢
  split at found
  · exact stores_of_unit found
  split at found
  · cases found
  split at found
  · cases found
  · exact stores_of_unit found

end SolidityBuild.SourceStore
