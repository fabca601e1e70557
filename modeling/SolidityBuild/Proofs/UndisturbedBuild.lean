import SolidityBuild.Proofs.ImportClosures
import SolidityBuild.Proofs.RepeatedBuild

/-!
# Builds that stay out of their own way

A build is followed by an idle one if its outputs are no input of it: the patterns still select the same files,
every loaded file still reads as before, and every import still leads where it led (`idle_of_staysOut`). The
next plan is then made in lockstep with the first one: all stores that come about are the same, up to what they
know of the vendored packages (`expand_alike`).
-/

namespace SolidityBuild

open FileTree (Covers)

/-! ## Stores -/

namespace SourceStore

/-- What the files of a store and their imports lead to is the same in another tree. -/
structure Undisturbed (store : SourceStore) (tree other : FileTree) : Prop where
  covers : Covers tree other
  loaded : ∀ unit ∈ store.units, other.readText unit.path = tree.readText unit.path
  imports : ∀ unit ∈ store.units, ∀ reference ∈ Source.Import.references unit.content,
    search other store.base reference (unit.path.parent?.getD store.base) =
      search tree store.base reference (unit.path.parent?.getD store.base)

/-- Two stores that differ only in what they know of the vendored packages, each of those of its own tree. -/
structure Alike (tree other : FileTree) (store store' : SourceStore) : Prop where
  rest : ∃ vendored, store' = { store with vendored }
  surveyed : store.Surveyed tree
  surveyed' : store'.Surveyed other

variable {tree other : FileTree} {store store' loaded after final : SourceStore}

theorem canonical_eq (covers : Covers tree other) {p canonical : Path} (found : tree.canonical p = .ok canonical) :
    other.canonical p = .ok canonical := by
  obtain ⟨location, leads, same⟩ := map_eq_ok_iff.mp found
  exact map_eq_ok_iff.mpr ⟨location, covers.locate leads, same⟩

theorem Alike.unit_eq (alike : Alike tree other store store') (p : Path) : store'.unit p = store.unit p := by
  obtain ⟨⟨vendored, rfl⟩, _, _⟩ := alike
  rfl

theorem Alike.remember (alike : Alike tree other store store') (key : String) (p : Path) :
    Alike tree other (store.remember key p) (store'.remember key p) := by
  obtain ⟨⟨vendored, rfl⟩, surveyed, surveyed'⟩ := alike
  exact ⟨⟨vendored, rfl⟩, surveyed, surveyed'⟩

theorem Alike.add (alike : Alike tree other store store') (p : Path) (text : String) (role : Role) :
    Alike tree other (store.add p text role) (store'.add p text role) := by
  obtain ⟨⟨vendored, rfl⟩, surveyed, surveyed'⟩ := alike
  refine ⟨⟨vendored, ?_⟩, ?_, ?_⟩
  · have there : ({ store with vendored } : SourceStore).get? p = store.get? p := rfl
    unfold SourceStore.add
    rw [there]
    cases store.get? p <;> cases role <;> rfl
  · rw [add_eq]
    exact surveyed
  · rw [add_eq]
    exact surveyed'

theorem Alike.locate (alike : Alike tree other store store') {reference : String} {directory : Path}
    (same : search other store.base reference directory = search tree store.base reference directory) :
    (store'.locate other reference directory).1 = (store.locate tree reference directory).1 ∧
      Alike tree other (store.locate tree reference directory).2 (store'.locate other reference directory).2 := by
  have found := alike.surveyed.locate_fst reference directory
  have found' := alike.surveyed'.locate_fst reference directory
  have surveyed := alike.surveyed.locate_snd reference directory
  have surveyed' := alike.surveyed'.locate_snd reference directory
  obtain ⟨vendored, rfl⟩ := alike.rest
  refine ⟨by rw [found, found', same], ⟨?_, surveyed, surveyed'⟩⟩
  obtain ⟨memory, left, _⟩ := store.locate_snd tree reference directory
  obtain ⟨memory', left', _⟩ := SourceStore.locate_snd { store with vendored } other reference directory
  rw [left, left']
  exact ⟨memory', rfl⟩

/-- A dependency that is loaded in one tree is loaded in the other one in the same way. -/
theorem Alike.load (alike : Alike tree other store store') (undisturbed : final.Undisturbed tree other)
    {p canonical : Path} (succeeds : store.load tree p .dependency = .ok (canonical, loaded))
    (retains : loaded.Retains final) :
    ∃ loaded', store'.load other p .dependency = .ok (canonical, loaded') ∧ Alike tree other loaded loaded' := by
  obtain ⟨leads, text, rfl, reads⟩ := load_eq_ok succeeds
  refine ⟨store'.add canonical text .dependency, ?_, alike.add canonical text .dependency⟩
  have same : store'.get? canonical = store.get? canonical := by
    obtain ⟨vendored, rfl⟩ := alike.rest
    rfl
  unfold SourceStore.load
  rw [canonical_eq undisturbed.covers leads]
  dsimp only
  cases there : store.get? canonical with
  | some unit =>
    have known : (store'.get? canonical).isSome = true := by rw [same, there]; rfl
    rw [same, there, add_eq_promote known]
  | none =>
    -- The file that is read is in the final store, so it reads the same in the other tree.
    have file : (store.add canonical text .dependency).file? canonical =
        some (canonical, Source.Constant.substitute store.constants text) := by
      rw [file?_add, file?, there, Path.same_refl]
      rfl
    obtain ⟨unit, found, equal⟩ := Option.map_eq_some_iff.mp (retains file)
    have read := undisturbed.loaded unit (List.mem_of_find?_eq_some found)
    rw [(Prod.mk.inj equal).1, reads there] at read
    rw [same, there, read]

/-- A reference that is resolved in one tree is resolved in the other one in the same way. -/
theorem Alike.resolve (alike : Alike tree other store store') (undisturbed : final.Undisturbed tree other)
    {reference : String} {directory : Path}
    (same : search other store.base reference directory = search tree store.base reference directory) {unit : SourceUnit}
    (resolved : store.resolve tree reference directory = (.ok unit, after)) (retains : after.Retains final) :
    ∃ after', store'.resolve other reference directory = (.ok unit, after') ∧ Alike tree other after after' := by
  obtain ⟨found, located⟩ := alike.locate same
  have aliases : store'.aliases = store.aliases := by
    obtain ⟨vendored, rfl⟩ := alike.rest
    rfl
  unfold SourceStore.resolve at resolved ⊢
  dsimp only at resolved ⊢
  rw [aliases]
  split at resolved
  · obtain ⟨here, rfl⟩ := Prod.mk.inj resolved
    exact ⟨store', by rw [alike.unit_eq, here], alike⟩
  split at resolved
  · cases resolved
  next file middle leads =>
  rw [leads] at found located
  obtain ⟨middle', leads'⟩ : ∃ middle', store'.locate other reference directory = (.ok file, middle') :=
    ⟨(store'.locate other reference directory).2, Prod.ext found rfl⟩
  rw [leads'] at located ⊢
  dsimp only at located resolved ⊢
  split at resolved
  · cases resolved
  next canonical loaded loads =>
  obtain ⟨here, rfl⟩ := Prod.mk.inj resolved
  obtain ⟨loaded', loads', alike'⟩ := located.load undisturbed loads retains
  have remembered := alike'.remember (requestKey reference directory) canonical
  rw [loads']
  dsimp only
  exact ⟨_, by rw [remembered.unit_eq, here], remembered⟩

end SourceStore

/-! ## Workspaces -/

namespace Workspace

open ImportGraph (Sound)
open SourceStore (Undisturbed)

/-- Two workspaces with the same graph and alike stores. -/
structure Alike (tree other : FileTree) (base : Path) (w w' : Workspace) : Prop where
  sound : Sound w.graph
  graph : w'.graph = w.graph
  base : w.store.base = base
  store : SourceStore.Alike tree other w.store w'.store

variable {tree other : FileTree} {w w' after : Workspace} {final : SourceStore}

theorem importUnit_alike (alike : Alike tree other final.base w w') (undisturbed : final.Undisturbed tree other)
    {importer directory : Path} {reference : String}
    (same : SourceStore.search other final.base reference directory = SourceStore.search tree final.base reference directory)
    {unit : SourceUnit} (imported : w.importUnit tree importer directory reference = (.ok unit, after))
    (retains : after.store.Retains final) :
    ∃ after', w'.importUnit other importer directory reference = (.ok unit, after') ∧
      Alike tree other final.base after after' := by
  unfold importUnit at imported
  split at imported
  · cases imported
  next result store _ resolved =>
  obtain ⟨rfl, rfl⟩ := Prod.mk.inj imported
  rw [← alike.base] at same
  obtain ⟨store', resolved', alike'⟩ := alike.store.resolve undisturbed same resolved retains
  refine ⟨{ w' with store := store' }, ?_, alike.sound, alike.graph, ?_, alike'⟩
  · unfold importUnit
    rw [resolved']
  · have base := SourceStore.base_resolve w.store tree reference directory
    rw [resolved] at base
    exact base.trans alike.base

/-- What is expanded in one workspace is expanded in an alike one in the same way. -/
def Follows (tree other : FileTree) (final : SourceStore) (expand expand' : Workspace → Path → Result (List Path) × Workspace) :
    Prop :=
  ∀ w w' p closure after, Alike tree other final.base w w' → expand w p = (.ok closure, after) →
    after.store.Retains final → ∃ after', expand' w' p = (.ok closure, after') ∧ Alike tree other final.base after after'

theorem followImports_alike {expand expand' : Workspace → Path → Result (List Path) × Workspace} {visiting : List Path}
    (expands : ∀ w p, Sound w.graph → Expands visiting w p (expand w p)) (follows : Follows tree other final expand expand')
    (undisturbed : final.Undisturbed tree other) {importer directory : Path} {references : List String}
    (same : ∀ reference ∈ references, SourceStore.search other final.base reference directory =
      SourceStore.search tree final.base reference directory)
    {closure closure' : List Path} {edges edges' : List ImportEdge} (alike : Alike tree other final.base w w')
    (followed : followImports expand tree importer directory closure edges w references = (.ok (closure', edges'), after))
    (retains : after.store.Retains final) :
    ∃ after', followImports expand' other importer directory closure edges w' references = (.ok (closure', edges'), after') ∧
      Alike tree other final.base after after' := by
  induction references generalizing w w' closure edges with
  | nil =>
    cases followed
    exact ⟨w', rfl, alike⟩
  | cons reference rest ih =>
    have imported : Advances visiting w (w.importUnit tree importer directory reference).2 :=
      advances_importUnit alike.sound importer directory reference
    unfold followImports at followed
    split at followed
    · cases followed
    next unit w₁ imports =>
    rw [imports] at imported
    have advances := (expands w₁ unit.path imported.sound).1
    split at followed
    · cases followed
    next nested w₂ expanded =>
    rw [expanded] at advances
    have later := (followImports_advances expands importer directory rest advances.sound followed).1
    have retains₂ := later.retains.trans retains
    obtain ⟨w₁', imports', alike₁⟩ := importUnit_alike alike undisturbed (same reference (by simp)) imports
      (advances.retains.trans retains₂)
    obtain ⟨w₂', expanded', alike₂⟩ := follows _ _ _ _ _ alike₁ expanded retains₂
    unfold followImports
    rw [imports']
    dsimp only
    rw [expanded']
    exact ih (fun other mem => same other (List.mem_cons_of_mem _ mem)) alike₂ followed

/-- Expanding succeeds in an alike workspace with the same closure, if there is no less room. -/
theorem expand_alike (undisturbed : final.Undisturbed tree other) {room room' : Nat} (more : room ≤ room')
    (visiting : List Path) : Follows tree other final (expand tree room visiting) (expand other room' visiting) := by
  induction room generalizing room' visiting with
  | zero =>
    intro w w' p closure after alike expanded
    cases expanded
  | succ room ih =>
    intro w w' p closure after alike expanded retains
    obtain ⟨room', rfl⟩ : ∃ rest, room' = rest + 1 := ⟨room' - 1, by omega⟩
    have advances := (expand_advances tree (room + 1) visiting w p alike.sound).1
    rw [expanded] at advances
    have base : w'.store.base = w.store.base := by
      obtain ⟨vendored, same⟩ := alike.store.rest
      rw [same]
    unfold expand at expanded ⊢
    rw [alike.graph, alike.store.unit_eq, base]
    split at expanded
    · cases expanded
      exact ⟨w', rfl, alike⟩
    split at expanded
    · cases expanded
    next notVisited =>
    rw [if_neg notVisited]
    split at expanded
    · cases expanded
    next unit loaded =>
    dsimp only at expanded ⊢
    split at expanded
    · cases expanded
    next closure edges w₁ followed =>
    cases expanded
    -- The file is in the final store, so all its imports lead where they led.
    have found := SourceStore.unit_eq_ok_iff.mp loaded
    obtain ⟨unit', found', path, content⟩ := (advances.retains.trans retains).exists_get? found
    have mem := List.mem_of_find?_eq_some found'
    have parent : p.parent? = unit'.path.parent? := by
      rw [path]
      exact Path.parent?_congr (Path.same_symm (SourceStore.same_of_get? found))
    have same : ∀ reference ∈ Source.Import.references unit.content,
        SourceStore.search other final.base reference (p.parent?.getD w.store.base) =
          SourceStore.search tree final.base reference (p.parent?.getD w.store.base) := by
      intro reference listed
      rw [parent, alike.base]
      exact undisturbed.imports unit' mem reference (content ▸ listed)
    obtain ⟨w₁', followed', alike₁⟩ :=
      followImports_alike (fun w q => expand_advances tree room (visiting ++ [p]) w q)
        (ih (Nat.le_of_succ_le_succ more) (visiting ++ [p])) undisturbed same alike followed retains
    rw [followed']
    exact ⟨_, rfl, advances.sound, by rw [alike₁.graph], alike₁.base, alike₁.store⟩

theorem closure_alike (undisturbed : final.Undisturbed tree other) (more : tree.nodes.length ≤ other.nodes.length) :
    Follows tree other final (·.closure tree) (·.closure other) := by
  intro w w' p closure after alike
  have size : w'.store.units.length = w.store.units.length := by
    obtain ⟨vendored, same⟩ := alike.store.rest
    rw [same]
  exact expand_alike undisturbed (by omega) [] w w' p closure after alike

end Workspace

/-! ## Plans -/

namespace Build

open Artifact (Wrote WellNamed OutputFile)
open SourceStore (Undisturbed)
open Workspace (Alike)

variable {tree other : FileTree} {config : Configuration} {release : String} {files chosen : List Path}
  {w w' after : Workspace} {final : SourceStore} {units : List CompilationUnit} {plan : Plan}

theorem advances_expandAll (sound : w.graph.Sound) (expanded : expandAll tree w chosen = (.ok units, after)) :
    Workspace.Advances [] w after := by
  induction chosen generalizing w units with
  | nil =>
    cases expanded
    exact .refl sound
  | cons primary rest ih =>
    have first := (Workspace.closure_advances tree w primary sound).1
    unfold expandAll at expanded
    split at expanded
    · cases expanded
    next closure w₁ same =>
    rw [same] at first
    split at expanded
    · cases expanded
    next units₁ w₂ later =>
    cases expanded
    exact first.trans (ih first.sound later)

/-- All selected files are expanded in an alike workspace with the same units. -/
theorem expandAll_alike (undisturbed : final.Undisturbed tree other) (more : tree.nodes.length ≤ other.nodes.length)
    (alike : Alike tree other final.base w w') (expanded : expandAll tree w chosen = (.ok units, after))
    (retains : after.store.Retains final) :
    ∃ after', expandAll other w' chosen = (.ok units, after') ∧ Alike tree other final.base after after' := by
  induction chosen generalizing w w' units with
  | nil =>
    cases expanded
    exact ⟨w', rfl, alike⟩
  | cons primary rest ih =>
    have sound := (Workspace.closure_advances tree w primary alike.sound).1.sound
    unfold expandAll at expanded ⊢
    split at expanded
    · cases expanded
    next closure w₁ first =>
    split at expanded
    · cases expanded
    next units₁ w₂ later =>
    cases expanded
    rw [first] at sound
    have retains₁ := (advances_expandAll sound later).retains.trans retains
    obtain ⟨w₁', first', alike₁⟩ :=
      Workspace.closure_alike undisturbed more w w' primary closure w₁ alike first retains₁
    obtain ⟨w₂', later', alike₂⟩ := ih alike₁ later
    dsimp only at first'
    rw [first']
    dsimp only
    rw [later']
    exact ⟨w₂', rfl, alike₂⟩

theorem loadPrimaries_frame {store loaded : SourceStore} (succeeds : store.loadPrimaries tree files = .ok (chosen, loaded)) :
    loaded.base = store.base ∧ loaded.vendored = store.vendored := by
  obtain ⟨read, -, same⟩ := bind_eq_ok_iff.mp succeeds
  cases same
  clear succeeds
  induction read generalizing store with
  | nil => exact ⟨rfl, rfl⟩
  | cons file rest ih =>
    have base : (store.add file.1 file.2 .primary).base = store.base := by rw [store.add_eq]
    have vendored : (store.add file.1 file.2 .primary).vendored = store.vendored := by rw [store.add_eq]
    obtain ⟨base', vendored'⟩ := @ih (store.add file.1 file.2 .primary)
    exact ⟨base'.trans base, vendored'.trans vendored⟩

/-- The next plan, in a tree in which nothing that the plan read has changed, has the same units with the same
hashes. -/
theorem plan_undisturbed (planned : Build.plan tree config release files = .ok plan)
    (undisturbed : plan.workspace.store.Undisturbed tree other) (more : tree.nodes.length ≤ other.nodes.length)
    (selected : ∀ p ∈ files, SourceStore.read other p = SourceStore.read tree p) :
    ∃ next, Build.plan other config release files = .ok next ∧ next.units = plan.units ∧
      ∀ files, next.workspace.store.hashes files = plan.workspace.store.hashes files := by
  obtain ⟨primaries, store, loaded, expanded, decided⟩ := plan_eq_ok_iff.mp planned
  have loaded' : (SourceStore.new config.baseDirectory config.constants).loadPrimaries other files =
      .ok (primaries, store) := by
    rw [← loaded]
    unfold SourceStore.loadPrimaries
    rw [mapM_congr selected]
  have surveyed (tree : FileTree) : store.Surveyed tree := fun index known => by
    rw [(loadPrimaries_frame loaded).2] at known
    cases known
  have advances := advances_expandAll (w := ⟨store, .empty⟩) .empty expanded
  have alike : Alike tree other plan.workspace.store.base ⟨store, .empty⟩ ⟨store, .empty⟩ :=
    ⟨.empty, rfl, advances.base.symm, ⟨⟨_, rfl⟩, surveyed tree, surveyed other⟩⟩
  obtain ⟨workspace, expanded', alike'⟩ := expandAll_alike undisturbed more alike expanded (.refl _)
  obtain ⟨⟨memory, same⟩, _, _⟩ := alike'.store
  have hashes (files : List Path) : workspace.store.hashes files = plan.workspace.store.hashes files := by
    rw [same]
    rfl
  obtain ⟨stale, decided'⟩ : ∃ stale, plan.units.mapM (isStale other config release workspace.store) = .ok stale := by
    refine exists_mapM_eq_ok fun unit mem => ?_
    obtain ⟨_, _, here⟩ := ok_of_mem_of_mapM decided mem
    obtain ⟨current, listed, _⟩ := isStale_eq_ok_iff.mp here
    exact ⟨_, isStale_eq_ok_iff.mpr ⟨current, (hashes unit.files).trans listed, rfl⟩⟩
  exact ⟨⟨workspace, plan.units, stale⟩, plan_eq_ok_iff.mpr ⟨primaries, store, loaded', expanded', decided'⟩, rfl, hashes⟩

/-! ## The next build -/

variable {ready : FileTree} {toolchain : Toolchain} {written : List OutputFile}

/-- The outputs of a build are no input of it: in the tree that it leaves the patterns select the same files, these
and all other loaded files read as before, and all their imports lead where they led. -/
structure StaysOut (config : Configuration) (ready after : FileTree) (chosen : List Path) (plan : Plan) : Prop where
  discovered : Discovery.discover after config.baseDirectory config.inputs = .ok chosen
  selected : ∀ p ∈ chosen, SourceStore.read after p = SourceStore.read ready p
  loaded : ∀ unit ∈ plan.workspace.store.units, after.readText unit.path = ready.readText unit.path
  imports : ∀ unit ∈ plan.workspace.store.units, ∀ reference ∈ Source.Import.references unit.content,
    SourceStore.search after config.baseDirectory reference (unit.path.parent?.getD config.baseDirectory) =
      SourceStore.search ready config.baseDirectory reference (unit.path.parent?.getD config.baseDirectory)

theorem base_of_plan (planned : Build.plan tree config release files = .ok plan) :
    plan.workspace.store.base = config.baseDirectory := by
  obtain ⟨_, store, loaded, expanded, _⟩ := plan_eq_ok_iff.mp planned
  exact (advances_expandAll (w := ⟨store, .empty⟩) .empty expanded).base.trans (loadPrimaries_frame loaded).1

/-- A build that ended well and stayed out of its own way is followed by an idle one. -/
theorem idle_of_staysOut (completes : Completes tree config toolchain ready chosen plan written)
    (named : WellNamed plan.units) (identifiers : toolchain.NamesIdentifiers)
    (noLinks : NoLinks ready config plan written)
    (staysOut : StaysOut config ready (compile tree config toolchain).tree chosen plan) :
    Idle plan (compile tree config toolchain).tree (compile (compile tree config toolchain).tree config toolchain) := by
  have base := base_of_plan completes.planned
  have undisturbed : plan.workspace.store.Undisturbed ready (compile tree config toolchain).tree :=
    ⟨completes.wrote.covers, staysOut.loaded, by rw [base]; exact staysOut.imports⟩
  obtain ⟨next, planned, units, hashes⟩ :=
    plan_undisturbed completes.planned undisturbed completes.wrote.length_le staysOut.selected
  refine (idle_iff completes named identifiers noLinks).mpr
    ⟨chosen, next, staysOut.discovered, planned, fun unit mem => ?_, fun now mem new => ?_⟩
  · exact ⟨unit, units ▸ mem, rfl, hashes unit.files⟩
  · rw [units] at mem
    exact absurd (List.mem_map_of_mem mem) new

end Build

end SolidityBuild
