import SolidityBuild.Proofs.AliasCache

/-!
# References that are known

A store remembers where a reference led to, and keeps that and the file in everything that happens to it later
(`continues_after`). So a reference that led to a file leads there from then on, whatever becomes of the tree
(`knows_of_resolve`, `Knows.answer_resolve`), and one that is not found or not read fails again on the store that
it leaves (`resolve_again`).
-/

namespace SolidityBuild.SourceStore

variable {store middle after : SourceStore} {tree : FileTree} {reference : String} {directory p : Path}
  {file : Path × String}

/-- A file is stored under its own path. -/
theorem file?_own (found : store.file? p = some file) : store.file? file.1 = some file := by
  obtain ⟨unit, there, rfl⟩ := Option.map_eq_some_iff.mp found
  rw [file?, store.get?_congr (same_of_get? there), there]
  rfl

theorem file?_congr (store : SourceStore) {p q : Path} (same : p.same q = true) : store.file? p = store.file? q := by
  rw [file?, file?, store.get?_congr same]

theorem same_of_file? (found : store.file? p = some file) : file.1.same p = true := by
  obtain ⟨unit, there, rfl⟩ := Option.map_eq_some_iff.mp found
  exact same_of_get? there

theorem file?_of_unit {unit : SourceUnit} (there : store.unit p = .ok unit) :
    store.file? p = some (unit.path, unit.content) := by
  rw [file?, unit_eq_ok_iff.mp there]
  rfl

theorem resolve_known (known : store.aliases.get? (requestKey reference directory) = some p) (tree : FileTree) :
    store.resolve tree reference directory = (store.unit p, store) := by
  unfold resolve
  dsimp only
  rw [known]

/-- A reference that is not remembered is looked for, and its file is loaded and remembered. -/
theorem resolve_new (new : store.aliases.get? (requestKey reference directory) = none) (tree : FileTree) :
    store.resolve tree reference directory =
      match store.locate tree reference directory with
      | (.error searched, store) => (.error (.sourceNotFound reference none searched), store)
      | (.ok file, store) =>
        match store.load tree file .dependency with
        | .error e => (.error e, store)
        | .ok (canonical, store) =>
          ((store.remember (requestKey reference directory) canonical).unit canonical,
            store.remember (requestKey reference directory) canonical) := by
  rw [resolve]
  dsimp only
  rewrite [new]
  rfl

/-! ## What a store keeps of another one -/

/-- A store that goes on from another one: it has its files and remembers where its references led to. -/
structure Continues (store after : SourceStore) : Prop where
  base : after.base = store.base
  retains : store.Retains after
  aliases : ∀ key p, store.aliases.get? key = some p → after.aliases.get? key = some p

theorem Continues.refl (store : SourceStore) : Continues store store := ⟨rfl, .refl store, fun _ _ => id⟩

theorem Continues.trans (first : Continues store middle) (second : Continues middle after) : Continues store after :=
  ⟨second.base.trans first.base, first.retains.trans second.retains,
    fun key p known => second.aliases key p (first.aliases key p known)⟩

theorem continues_add (store : SourceStore) (p : Path) (text : String) (role : Role) :
    Continues store (store.add p text role) := by
  have same := store.add_eq p text role
  refine ⟨by rw [same], store.retains_add p text role, fun key q known => ?_⟩
  rw [same]
  exact known

theorem continues_locate (store : SourceStore) (tree : FileTree) (reference : String) (directory : Path) :
    Continues store (store.locate tree reference directory).2 := by
  obtain ⟨_, same, _⟩ := store.locate_snd tree reference directory
  refine ⟨by rw [same], store.retains_locate tree reference directory, fun key q known => ?_⟩
  rw [same]
  exact known

/-- A key is only remembered if it was not before. -/
theorem continues_remember {key : String} (new : store.aliases.get? key = none) (p : Path) :
    Continues store (store.remember key p) := by
  refine ⟨rfl, store.retains_remember key p, fun other q known => ?_⟩
  rw [remember, Dict.get?_insert]
  split
  · next same =>
    rw [same, new] at known
    cases known
  · exact known

theorem aliases_locate (store : SourceStore) (tree : FileTree) (reference : String) (directory : Path) :
    (store.locate tree reference directory).2.aliases = store.aliases := by
  obtain ⟨_, same, _⟩ := store.locate_snd tree reference directory
  rw [same]

theorem continues_resolve (store : SourceStore) (tree : FileTree) (reference : String) (directory : Path) :
    Continues store (store.resolve tree reference directory).2 := by
  cases known : store.aliases.get? (requestKey reference directory) with
  | some p =>
    rw [resolve_known known]
    exact .refl store
  | none =>
    have located := store.continues_locate tree reference directory
    have aliases := store.aliases_locate tree reference directory
    rw [resolve_new known]
    generalize store.locate tree reference directory = outcome at located aliases
    obtain ⟨result, store'⟩ := outcome
    cases result with
    | error searched => exact located
    | ok file =>
      dsimp only at located aliases ⊢
      split
      · exact located
      next canonical loaded here =>
      obtain ⟨_, text, rfl, _⟩ := load_eq_ok here
      have new : (store'.add canonical text .dependency).aliases.get? (requestKey reference directory) = none := by
        rw [add_eq]
        dsimp only
        rw [aliases, known]
      exact located.trans ((store'.continues_add canonical text .dependency).trans (continues_remember new canonical))

theorem continues_loadPrimary {unit : SourceUnit} (loaded : store.loadPrimary tree p = .ok (unit, after)) :
    Continues store after := by
  obtain ⟨⟨canonical, store'⟩, here, rest⟩ := bind_eq_ok_iff.mp loaded
  obtain ⟨unit', _, same⟩ := bind_eq_ok_iff.mp rest
  cases same
  obtain ⟨_, text, rfl, _⟩ := load_eq_ok here
  exact store.continues_add canonical text .primary

theorem continues_foldl_add (store : SourceStore) (files : List (Path × String)) :
    Continues store (files.foldl (fun store (p, text) => store.add p text .primary) store) := by
  induction files generalizing store with
  | nil => exact .refl store
  | cons file rest ih => exact (store.continues_add file.1 file.2 .primary).trans (ih _)

theorem continues_loadPrimaries {paths chosen : List Path} (loaded : store.loadPrimaries tree paths = .ok (chosen, after)) :
    Continues store after := by
  obtain ⟨files, _, same⟩ := bind_eq_ok_iff.mp loaded
  cases same
  exact continues_foldl_add store files

/-- Every call on a store, with any tree, goes on from it. -/
theorem continues_after (tree : FileTree) (store : SourceStore) (call : Call) :
    Continues store (store.after tree call) := by
  cases call with
  | loadPrimary p =>
    rw [SourceStore.after]
    cases loaded : store.loadPrimary tree p with
    | error e => exact .refl store
    | ok result => exact continues_loadPrimary loaded
  | loadPrimaries paths =>
    rw [SourceStore.after]
    cases loaded : store.loadPrimaries tree paths with
    | error e => exact .refl store
    | ok result => exact continues_loadPrimaries loaded
  | resolve reference directory => exact store.continues_resolve tree reference directory

/-! ## Known references -/

/-- It is remembered that a reference leads to a file, and the file is loaded. -/
def Knows (store : SourceStore) (reference : String) (directory : Path) (file : Path × String) : Prop :=
  ∃ p, store.aliases.get? (requestKey reference directory) = some p ∧ store.file? p = some file

theorem Knows.of_continues (knows : store.Knows reference directory file) (continues : Continues store after) :
    after.Knows reference directory file := by
  obtain ⟨p, known, found⟩ := knows
  exact ⟨p, continues.aliases _ p known, continues.retains found⟩

theorem Knows.own (knows : store.Knows reference directory file) : store.file? file.1 = some file := by
  obtain ⟨p, _, found⟩ := knows
  exact file?_own found

/-- What is known is answered, for any tree. -/
theorem Knows.answer_resolve (knows : store.Knows reference directory file) (tree : FileTree) :
    answer (store.resolve tree reference directory).1 = .ok file := by
  obtain ⟨p, known, found⟩ := knows
  rw [resolve_known known]
  exact answer_unit found

/-- A reference that leads to a file is known from then on. -/
theorem knows_of_resolve {unit : SourceUnit} (found : (store.resolve tree reference directory).1 = .ok unit) :
    (store.resolve tree reference directory).2.Knows reference directory (unit.path, unit.content) := by
  unfold resolve at found ⊢
  dsimp only at found ⊢
  split at found
  · next p known => exact ⟨p, known, file?_of_unit found⟩
  split at found
  · cases found
  split at found
  · cases found
  next canonical loaded here =>
  refine ⟨canonical, ?_, file?_of_unit found⟩
  rw [remember, Dict.get?_insert, if_pos rfl]

/-! ## References that fail -/

theorem withVendored_again (store : SourceStore) (tree : FileTree) :
    (store.withVendored tree).2.withVendored tree = store.withVendored tree := by
  cases known : store.vendored with
  | some index =>
    have here : store.withVendored tree = (index, store) := by rw [withVendored, known]
    rw [here, here]
  | none =>
    have here : store.withVendored tree =
        (Source.vendored tree store.base, { store with vendored := some (Source.vendored tree store.base) }) := by
      rw [withVendored, known]
    rw [here]
    rfl

/-! Looking for a reference goes through the places it may name, packages and vendored sources, in this order. -/

theorem locate_of_isFile {file : Path} (first : (candidates store.base reference directory).find? tree.isFile = some file) :
    store.locate tree reference directory = (.ok file, store) := by
  unfold locate
  dsimp only
  rw [first]

theorem locate_of_isRelative (first : (candidates store.base reference directory).find? tree.isFile = none)
    (relative : Source.Import.isRelative reference = true) :
    store.locate tree reference directory = (.error (candidates store.base reference directory), store) := by
  unfold locate
  dsimp only
  rw [first]
  exact if_pos relative

theorem locate_of_package {file : Path} (first : (candidates store.base reference directory).find? tree.isFile = none)
    (relative : ¬Source.Import.isRelative reference = true)
    (package : Source.Package.resolve? tree store.base reference = some file) :
    store.locate tree reference directory = (.ok file, store) := by
  unfold locate
  dsimp only
  rw [first]
  dsimp only
  rw [if_neg relative, package]

theorem locate_of_vendored (first : (candidates store.base reference directory).find? tree.isFile = none)
    (relative : ¬Source.Import.isRelative reference = true)
    (package : Source.Package.resolve? tree store.base reference = none) :
    store.locate tree reference directory =
      match (store.withVendored tree).1.get? reference with
      | some file => (.ok file, (store.withVendored tree).2)
      | none => (.error (candidates store.base reference directory ++
          [((store.withVendored tree).2.base.child "node_modules").child reference,
            (((store.withVendored tree).2.base.child "lib").child "**").child "src"]), (store.withVendored tree).2) := by
  unfold locate
  dsimp only
  rw [first]
  dsimp only
  rewrite [if_neg relative, package]
  rfl

/-- Looking for a reference once more changes nothing. -/
theorem locate_again (store : SourceStore) (tree : FileTree) (reference : String) (directory : Path) :
    (store.locate tree reference directory).2.locate tree reference directory = store.locate tree reference directory := by
  cases first : (candidates store.base reference directory).find? tree.isFile with
  | some file => rw [locate_of_isFile first, locate_of_isFile first]
  | none =>
    by_cases relative : Source.Import.isRelative reference = true
    · rw [locate_of_isRelative first relative, locate_of_isRelative first relative]
    cases package : Source.Package.resolve? tree store.base reference with
    | some file => rw [locate_of_package first relative package, locate_of_package first relative package]
    | none =>
      have left : (store.locate tree reference directory).2 = (store.withVendored tree).2 := by
        rw [locate_of_vendored first relative package]
        cases (store.withVendored tree).1.get? reference <;> rfl
      have base : (store.withVendored tree).2.base = store.base := by
        obtain ⟨_, same, _⟩ := store.withVendored_snd tree
        rw [same]
      rw [left, locate_of_vendored first relative package,
        locate_of_vendored (by rw [base, first]) relative (by rw [base, package]), store.withVendored_again, base]

/-- A reference that is not found or not read fails again on the store that it leaves. -/
theorem resolve_again {e : Error} (fails : (store.resolve tree reference directory).1 = .error e) :
    ((store.resolve tree reference directory).2.resolve tree reference directory).1 = .error e := by
  cases known : store.aliases.get? (requestKey reference directory) with
  | some p =>
    have here := resolve_known known tree
    rw [here] at fails ⊢
    rw [here]
    exact fails
  | none =>
    have again := store.locate_again tree reference directory
    have aliases := store.aliases_locate tree reference directory
    rw [resolve_new known] at fails ⊢
    generalize store.locate tree reference directory = outcome at fails again aliases ⊢
    obtain ⟨result, left⟩ := outcome
    dsimp only at aliases again
    cases result with
    | error searched =>
      dsimp only at fails ⊢
      rw [resolve_new (by rw [aliases, known]), again]
      exact fails
    | ok file =>
      dsimp only at fails ⊢
      cases loaded : left.load tree file .dependency with
      | error e' =>
        rw [loaded] at fails
        dsimp only at fails ⊢
        rw [resolve_new (by rw [aliases, known]), again]
        dsimp only
        rw [loaded]
        exact fails
      | ok place =>
        rw [loaded] at fails
        dsimp only at fails ⊢
        have remembered : ((place.2.remember (requestKey reference directory) place.1).aliases.get?
            (requestKey reference directory)) = some place.1 := by rw [remember, Dict.get?_insert, if_pos rfl]
        rw [resolve_known remembered]
        exact fails

theorem load_ne_cyclicImport (cycle : List Path) (role : Role) : store.load tree p role ≠ .error (.cyclicImport cycle) := by
  unfold load
  split
  · simp
  split
  · simp
  split <;> simp

/-- No cycle of imports is found by a store. -/
theorem resolve_ne_cyclicImport (cycle : List Path) :
    (store.resolve tree reference directory).1 ≠ .error (.cyclicImport cycle) := by
  have unit (store : SourceStore) (p : Path) : store.unit p ≠ .error (.cyclicImport cycle) := by
    unfold SourceStore.unit
    split <;> simp
  unfold resolve
  dsimp only
  split
  · exact unit _ _
  split
  · simp
  split
  · next e failed =>
    intro same
    obtain rfl : e = .cyclicImport cycle := by simpa using same
    exact load_ne_cyclicImport cycle .dependency failed
  · exact unit _ _

end SolidityBuild.SourceStore
