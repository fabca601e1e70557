import SolidityBuild.Proofs.LoadedSources
import SolidityBuild.Proofs.StoreInvariant

/-!
# Selected files with one stem

The modules of selected files with one stem are at one path, and a manifest does not say whose it is. It does not
have to: two selected files never have the same hashes (`Expanded.hashes_ne`). If they had, each of them would be
among the files of the other, since the key of a file tells where it is; then each would import the other, and a
cycle of imports has no closure.
-/

namespace SolidityBuild

open SolidityBuild.Path (Listed)

/-- All entries have names that can name entries and spell no path. -/
def FileTree.PlainNames (tree : FileTree) : Prop := ∀ entry ∈ tree.nodes, Location.Plain entry.1

theorem FileTree.PlainNames.location {tree : FileTree} (plain : tree.PlainNames) {location : Location}
    {content : Content} (there : tree.node? location = some (.file content)) : location.Plain ∧ location ≠ [] := by
  obtain ⟨notRoot, entry, mem, rfl⟩ := exists_entry there
  exact ⟨plain entry mem, notRoot⟩

/-! ## Paths of closures -/

namespace Workspace

open ImportGraph (Sound)

/-- A store is what calls on a new one leave, and recorded closures have the paths of its files. -/
structure Tracks (tree : FileTree) (base : Path) (constants : Dict String) (w : Workspace) : Prop where
  calls : ∃ calls, w.store = SourceStore.afterAll tree base constants calls
  closures : ∀ x ∈ w.graph.expansions, ∀ q ∈ x.closure, w.store.Stores q

section

variable {tree : FileTree} {base : Path} {constants : Dict String} {visiting : List Path} {w after : Workspace}

theorem mem_or_mem_of_addNew {known added : List Path} {p : Path} (mem : p ∈ addNew known added) :
    p ∈ known ∨ p ∈ added := by
  obtain ⟨new, whole, inside⟩ := NameRegistry.exists_addNew_eq known added
  rw [whole, List.mem_append] at mem
  exact mem.imp_right fun new => inside new

theorem Tracks.importUnit (tracks : Tracks tree base constants w) (importer directory : Path) (reference : String) :
    Tracks tree base constants (w.importUnit tree importer directory reference).2 := by
  rw [importUnit_snd]
  obtain ⟨calls, same⟩ := tracks.calls
  refine ⟨⟨calls ++ [.resolve reference directory], ?_⟩, fun x mem q inside => ?_⟩
  · rw [SourceStore.afterAll_concat, ← same]
    rfl
  · exact (tracks.closures x mem q inside).of_retains (w.store.retains_resolve tree reference directory)

/-- A closure that is answered has the paths of loaded files. -/
def TracksExpansion (tree : FileTree) (base : Path) (constants : Dict String)
    (outcome : Result (List Path) × Workspace) : Prop :=
  Tracks tree base constants outcome.2 ∧ ∀ closure, outcome.1 = .ok closure → ∀ q ∈ closure, outcome.2.store.Stores q

theorem followImports_tracks {expand : Workspace → Path → Result (List Path) × Workspace}
    (expands : ∀ w p, Sound w.graph → Expands visiting w p (expand w p))
    (keeps : ∀ w p, Sound w.graph → Tracks tree base constants w → TracksExpansion tree base constants (expand w p))
    (importer directory : Path) (references : List String) (sound : Sound w.graph)
    (tracks : Tracks tree base constants w)
    {closure : List Path} (stored : ∀ q ∈ closure, w.store.Stores q) {edges : List ImportEdge}
    {outcome : Result (List Path × List ImportEdge)}
    (followed : followImports expand tree importer directory closure edges w references = (outcome, after)) :
    Tracks tree base constants after ∧
      ∀ closure' edges', outcome = .ok (closure', edges') → ∀ q ∈ closure', after.store.Stores q := by
  induction references generalizing w closure edges with
  | nil =>
    cases followed
    refine ⟨tracks, fun closure' edges' done => ?_⟩
    cases done
    exact stored
  | cons reference rest ih =>
    have imported : Advances visiting w (w.importUnit tree importer directory reference).2 :=
      advances_importUnit sound importer directory reference
    have tracked := tracks.importUnit importer directory reference
    unfold followImports at followed
    split at followed
    · next same =>
      cases followed
      rw [same] at tracked
      exact ⟨tracked, fun _ _ failed => by cases failed⟩
    next unit w₁ same =>
    have found : (w.store.resolve tree reference directory).1 = .ok unit := resolve_of_importUnit (by rw [same])
    have there : w₁.store.Stores unit.path := by
      have left := w.importUnit_snd tree importer directory reference
      rw [same] at left
      dsimp only at left
      rw [left]
      exact SourceStore.stores_of_resolve found
    rw [same] at imported tracked
    have advances := (expands w₁ unit.path imported.sound).1
    obtain ⟨tracked₂, nestedStored⟩ := keeps w₁ unit.path imported.sound tracked
    split at followed
    · next same =>
      cases followed
      rw [same] at tracked₂
      exact ⟨tracked₂, fun _ _ failed => by cases failed⟩
    next nested w₂ same =>
    rw [same] at advances tracked₂ nestedStored
    refine ih advances.sound tracked₂ (fun q mem => ?_) followed
    rcases mem_or_mem_of_addNew mem with collected | single
    · rcases mem_or_mem_of_addNew collected with before | here
      · exact (stored q before).of_retains (imported.retains.trans advances.retains)
      · exact nestedStored nested rfl q here
    · rw [List.mem_singleton.mp single]
      exact there.of_retains advances.retains

/-- Expanding a file keeps track of what is loaded, however it ends. -/
theorem expand_tracks (room : Nat) (visiting : List Path) (w : Workspace) (p : Path) (sound : Sound w.graph)
    (tracks : Tracks tree base constants w) : TracksExpansion tree base constants (expand tree room visiting w p) := by
  induction room generalizing visiting w p with
  | zero => exact ⟨tracks, fun _ failed => by cases failed⟩
  | succ room ih =>
    unfold expand
    split
    · next x found =>
      refine ⟨tracks, fun closure done => ?_⟩
      cases done
      exact tracks.closures x (List.mem_of_find?_eq_some found)
    split
    · exact ⟨tracks, fun _ failed => by cases failed⟩
    split
    · exact ⟨tracks, fun _ failed => by cases failed⟩
    next unit _ =>
    dsimp only
    split
    · next followed =>
      have keeps := followImports_tracks (fun w q => expand_advances tree room (visiting ++ [p]) w q)
        (fun w q => ih (visiting ++ [p]) w q) p _ _ sound tracks (fun _ mem => by cases mem) followed
      exact ⟨keeps.1, fun _ failed => by cases failed⟩
    next closure edges after followed =>
    obtain ⟨tracked, stored⟩ := followImports_tracks (fun w q => expand_advances tree room (visiting ++ [p]) w q)
      (fun w q => ih (visiting ++ [p]) w q) p _ _ sound tracks (fun _ mem => by cases mem) followed
    have inside := stored closure edges rfl
    refine ⟨⟨tracked.calls, fun x mem => ?_⟩, fun closure' done => ?_⟩
    · rcases List.mem_append.mp mem with before | single
      · exact tracked.closures x before
      · rw [List.mem_singleton.mp single]
        exact inside
    · cases done
      exact inside

theorem closure_tracks (sound : Sound w.graph) (tracks : Tracks tree base constants w) (p : Path) :
    TracksExpansion tree base constants (w.closure tree p) :=
  expand_tracks _ [] w p sound tracks

end

end Workspace

namespace Build

variable {tree ready : FileTree} {config : Configuration} {files chosen : List Path} {units : List CompilationUnit}
  {w after : Workspace} {unit other : CompilationUnit} {base : Path} {constants : Dict String}

theorem expandAll_tracks (sound : w.graph.Sound) (tracks : w.Tracks tree base constants)
    (expanded : expandAll tree w chosen = (.ok units, after)) : after.Tracks tree base constants := by
  induction chosen generalizing w units with
  | nil =>
    cases expanded
    exact tracks
  | cons primary rest ih =>
    have advances := (Workspace.closure_advances tree w primary sound).1
    have tracked := (Workspace.closure_tracks sound tracks primary).1
    unfold expandAll at expanded
    split at expanded
    · cases expanded
    next closure w₁ same =>
    rw [same] at advances tracked
    split at expanded
    · cases expanded
    next units₁ w₂ later =>
    cases expanded
    exact ih advances.sound tracked later

/-- The files of a unit are loaded under just their paths, in a store that calls on a new one leave. -/
theorem Expanded.stores (expanded : Expanded tree config files ready units w) (rooted : ready.Rooted)
    (mem : unit ∈ units) :
    (∃ calls, w.store = SourceStore.afterAll ready config.baseDirectory config.constants calls) ∧
      ∀ file ∈ unit.files, w.store.Stores file := by
  obtain ⟨_, chosen, store, loaded, all⟩ := expanded_iff.mp expanded
  have start : store = SourceStore.afterAll ready config.baseDirectory config.constants [.loadPrimaries files] := by
    show store = SourceStore.after ready (.new config.baseDirectory config.constants) (.loadPrimaries files)
    rw [SourceStore.after, loaded]
    rfl
  have tracks : Workspace.Tracks ready config.baseDirectory config.constants ⟨store, .empty⟩ :=
    ⟨⟨_, start⟩, fun _ listed => by cases listed⟩
  have advances := advances_expandAll (w := ⟨store, .empty⟩) .empty all
  have tracked := expandAll_tracks .empty tracks all
  refine ⟨tracked.calls, fun file inside => ?_⟩
  rcases List.mem_append.mp inside with imported | single
  · obtain ⟨x, found, same⟩ := ImportGraph.closure?_eq_some_iff.mp (closure?_expandAll .empty all mem)
    exact tracked.closures x (List.mem_of_find?_eq_some found) file (by rwa [same])
  · -- The primary file was answered when the selected files were loaded.
    rw [List.mem_singleton.mp single]
    have answered : (SourceStore.Call.loadPrimaries files).answers ready
        (SourceStore.afterAll ready config.baseDirectory config.constants []) = .ok chosen :=
      map_eq_ok_iff.mpr ⟨_, loaded, rfl⟩
    have selected : unit.primary ∈ chosen := by
      rw [← primary_expandAll all]
      exact List.mem_map_of_mem mem
    have holds := SourceStore.holds_afterAll rooted config.baseDirectory config.constants [.loadPrimaries files]
    rw [← start] at holds
    obtain ⟨stored, listed, path⟩ := (holds.stored unit.primary).mpr
      ⟨.primary, [], _, List.prefix_refl _, rfl, chosen, answered, selected⟩
    have there : store.unit unit.primary = .ok stored := SourceStore.unit_eq_ok_iff.mpr (path ▸ holds.own stored listed)
    have stores := SourceStore.stores_of_unit there
    rw [path] at stores
    exact stores.of_retains advances.retains

/-- The files of a unit are files of the tree, by the paths of their locations. -/
theorem Expanded.exists_location (expanded : Expanded tree config files ready units w) (rooted : tree.Rooted)
    (plain : tree.PlainNames) (mem : unit ∈ units) {file : Path} (inside : file ∈ unit.files) :
    ∃ location : Location, location.Plain ∧ location ≠ [] ∧ file = location.path := by
  have keeps := Artifact.keeps_ensureDirectories config.createDirectories (Artifact.directories config) tree
  rw [(expanded_iff.mp expanded).1] at keeps
  have rooted' := keeps.rooted rooted
  obtain ⟨⟨calls, same⟩, stores⟩ := expanded.stores rooted' mem
  obtain ⟨content, found⟩ := stores file inside
  obtain ⟨stored, there, pair⟩ := Option.map_eq_some_iff.mp found
  have path : stored.path = file := congrArg Prod.fst pair
  have listed := List.mem_of_find?_eq_some there
  have holds := SourceStore.holds_afterAll rooted' config.baseDirectory config.constants calls
  rw [← same] at holds
  obtain ⟨text, reads, _⟩ := holds.content stored listed
  obtain ⟨location, _, here, _, entry⟩ := rooted'.exists_location (holds.canonical stored listed) reads
  -- A run makes only directories before it loads anything.
  rcases keeps.added entry with before | directory
  · obtain ⟨isPlain, notRoot⟩ := plain.location before
    exact ⟨location, isPlain, notRoot, path.symm.trans here⟩
  · cases directory

/-! ## Hashes -/

/-- The keys of hashes are those of the files. -/
theorem isSome_hashes {store : SourceStore} {hashes : Dict String} (listed : store.hashes files = .ok hashes)
    {key : String} : (hashes.get? key).isSome = true ↔ ∃ file ∈ files, file.key store.base = key := by
  obtain ⟨entries, all, same⟩ := bind_eq_ok_iff.mp listed
  cases same
  rw [Dict.isSome_get?_ofList]
  constructor
  · rintro ⟨hash, mem⟩
    obtain ⟨file, inside, made⟩ := mem_of_mem_of_mapM all mem
    obtain ⟨stored, _, same⟩ := bind_eq_ok_iff.mp made
    cases same
    exact ⟨file, inside, rfl⟩
  · rintro ⟨file, inside, rfl⟩
    obtain ⟨entry, mem, made⟩ := ok_of_mem_of_mapM all inside
    obtain ⟨stored, _, same⟩ := bind_eq_ok_iff.mp made
    cases same
    exact ⟨stored.hash, mem⟩

/-- Units with the same hashes have the same files. -/
theorem Expanded.files_subset (expanded : Expanded tree config files ready units w) (rooted : tree.Rooted)
    (plain : tree.PlainNames) (mem : unit ∈ units) (mem' : other ∈ units) {hashes : Dict String}
    (listed : w.store.hashes unit.files = .ok hashes) (listed' : w.store.hashes other.files = .ok hashes) :
    unit.files ⊆ other.files := by
  intro file inside
  obtain ⟨file', inside', key⟩ := (isSome_hashes listed').mp ((isSome_hashes listed).mpr ⟨file, inside, rfl⟩)
  obtain ⟨location, isPlain, notRoot, rfl⟩ := expanded.exists_location rooted plain mem inside
  obtain ⟨location', isPlain', notRoot', rfl⟩ := expanded.exists_location rooted plain mem' inside'
  rw [← Location.eq_of_key isPlain' isPlain notRoot' notRoot w.store.base key]
  exact inside'

/-- Selected files have different hashes. -/
theorem Expanded.hashes_ne (expanded : Expanded tree config files ready units w) (rooted : tree.Rooted)
    (plain : tree.PlainNames) (mem : unit ∈ units) (mem' : other ∈ units) (differ : unit.primary ≠ other.primary) :
    ∃ hashes hashes', w.store.hashes unit.files = .ok hashes ∧ w.store.hashes other.files = .ok hashes' ∧
      hashes ≠ hashes' := by
  obtain ⟨hashes, listed⟩ := exists_hashes fun file inside => expanded.loaded mem inside
  obtain ⟨hashes', listed'⟩ := exists_hashes fun file inside => expanded.loaded mem' inside
  refine ⟨hashes, hashes', listed, listed', ?_⟩
  rintro rfl
  have imports {first second : CompilationUnit} (mem : first ∈ units)
      (part : second.files ⊆ first.files) (differ : first.primary ≠ second.primary) :
      Relation.TransGen w.graph.Imports first.primary second.primary := by
    have inside := part (by simp [CompilationUnit.files] : second.primary ∈ second.files)
    rw [CompilationUnit.files, List.mem_append, List.mem_singleton] at inside
    have imported := inside.resolve_right (Ne.symm differ)
    exact ((expanded.isClosure mem).reached _).mp (Path.listed_of_mem imported)
  have there := imports mem (expanded.files_subset rooted plain mem' mem listed' listed) differ
  have back := imports mem' (expanded.files_subset rooted plain mem mem' listed listed') (Ne.symm differ)
  have closed := expanded.isClosure mem
  exact closed.proper ((closed.reached _).mpr (there.trans back))

/-- Modules of selected files with one stem are told apart by their hashes: no two selected files have the same ones, so
a run skips at most one of several files with one stem, and the module that it finds for this records the hashes of its
own files and not those of another. -/
theorem shared_stems_apart (rooted : tree.Rooted) (plain : tree.PlainNames)
    (expanded : Expanded tree config files ready units w) :
    (∀ unit ∈ units, ∀ other ∈ units, unit.primary ≠ other.primary →
      ∃ hashes hashes', w.store.hashes unit.files = .ok hashes ∧ w.store.hashes other.files = .ok hashes' ∧
        hashes ≠ hashes') ∧
    ∀ toolchain report, (compileFiles tree config toolchain files).result = .ok report →
      ∀ unit ∈ units, unit.primary ∈ report.skipped →
        ∃ recorded,
          Manifest.read? ready (Artifact.modulePath config unit.primary) = some ⟨recorded, some toolchain.release⟩ ∧
          w.store.hashes unit.files = .ok recorded ∧
          ∀ other ∈ units, other.primary ≠ unit.primary → Artifact.stem other.primary = Artifact.stem unit.primary →
            other.primary ∉ report.skipped ∧ w.store.hashes other.files ≠ .ok recorded := by
  refine ⟨fun unit mem other mem' => expanded.hashes_ne rooted plain mem mem',
    fun toolchain report ran unit mem skips => ?_⟩
  obtain ⟨stale, prepared⟩ := expanded.exists_plan toolchain.release
  obtain ⟨_, _, _, prepared', _, _, _, skipped, _⟩ := compileFiles_eq_ok ran
  rw [prepared] at prepared'
  cases prepared'
  have planned := (prepare_eq_ok_iff.mp prepared).2
  have valid {unit : CompilationUnit} (mem : unit ∈ units) (skips : unit.primary ∈ report.skipped) :
      ∃ current, w.store.hashes unit.files = .ok current ∧
        Manifest.read? ready (Artifact.modulePath config unit.primary) = some ⟨current, some toolchain.release⟩ := by
    rw [skipped] at skips
    exact isValid_iff.mp ((primary_mem_skipped_iff planned mem).mp skips)
  obtain ⟨recorded, listed, found⟩ := valid mem skips
  refine ⟨recorded, found, listed, fun other mem' differ stem => ?_⟩
  have foreign : w.store.hashes other.files ≠ .ok recorded := by
    intro same
    obtain ⟨hashes, hashes', here, there, apart⟩ := expanded.hashes_ne rooted plain mem' mem differ
    rw [same] at here
    rw [listed] at there
    cases here
    cases there
    exact apart rfl
  refine ⟨fun skips' => ?_, foreign⟩
  obtain ⟨current, listed', found'⟩ := valid mem' skips'
  have path : Artifact.modulePath config other.primary = Artifact.modulePath config unit.primary := by
    unfold Artifact.modulePath
    rw [stem]
  rw [path, found] at found'
  cases found'
  exact foreign listed'

namespace Sample

/-- Two files of one name and one content. -/
def namesakes : FileTree :=
  ⟨[(["p"], .directory), (["p", "contracts"], .directory),
    (["p", "contracts", "Token.sol"], .file (.text "contract Token {}\n")), (["p", "contracts", "v2"], .directory),
    (["p", "contracts", "v2", "Token.sol"], .file (.text "contract Token {}\n"))], [], by decide⟩

def token : CompilationUnit := ⟨.ofText "/p/contracts/Token.sol", []⟩

def newToken : CompilationUnit := ⟨.ofText "/p/contracts/v2/Token.sol", []⟩

theorem rooted_namesakes : namesakes.Rooted := ⟨nofun, namesakes.isOpen_root⟩

theorem plainNames_namesakes : namesakes.PlainNames := by
  unfold FileTree.PlainNames Location.Plain Path.IsName
  decide

theorem expanded_namesakes :
    ∃ ready w, Expanded namesakes configuration [token.primary, newToken.primary] ready [token, newToken] w := by
  have units : (expandSelected namesakes configuration [token.primary, newToken.primary]).toOption.map (·.2.1) =
      some [token, newToken] := by decide +kernel
  obtain ⟨⟨ready, _, w⟩, found, rfl⟩ := Option.map_eq_some_iff.mp units
  exact ⟨ready, w, toOption_eq_some_iff.mp found⟩

end Sample

/-- Two files with one stem and the same content have different hashes. -/
theorem shared_stems_apart_namesakes :
    Sample.namesakes.Rooted ∧ Sample.namesakes.PlainNames ∧
      Artifact.stem Sample.token.primary = Artifact.stem Sample.newToken.primary ∧
      ∃ ready w, Expanded Sample.namesakes Sample.configuration [Sample.token.primary, Sample.newToken.primary] ready
          [Sample.token, Sample.newToken] w ∧
        ∃ hashes hashes', w.store.hashes Sample.token.files = .ok hashes ∧
          w.store.hashes Sample.newToken.files = .ok hashes' ∧ hashes ≠ hashes' := by
  obtain ⟨ready, w, expanded⟩ := Sample.expanded_namesakes
  obtain ⟨apart, _⟩ := shared_stems_apart Sample.rooted_namesakes Sample.plainNames_namesakes expanded
  exact ⟨Sample.rooted_namesakes, Sample.plainNames_namesakes, by decide +kernel, ready, w, expanded,
    apart Sample.token (by simp) Sample.newToken (by simp) (by decide +kernel)⟩

end Build

end SolidityBuild
