import SolidityBuild.Proofs.ImportClosures
import SolidityBuild.Proofs.CanonicalPaths

/-!
# Expanding ends

`expand` is told how many files can still join those that are being expanded. The rules that it follows do not
speak of that number (`Visits`): without a limit a call might go on for ever, and what it comes to is what the rules
derive. They derive one outcome at most (`Visits.unique`), and a run either is derived by them or has as many
different files open as it was allowed (`expand_visits`). No call for a closure has that many, since every file that
is opened is one of the store or of the tree (`closure_visits`).
-/

namespace SolidityBuild

open SolidityBuild.Path (Listed listed_append listed_singleton)

namespace Workspace

open ImportGraph (Sound)

/-! ## The rules -/

mutual

/-- What it comes to that a file is expanded while the files `visiting` are. -/
inductive Visits (tree : FileTree) : List Path → Workspace → Path → Result (List Path) × Workspace → Prop
  /-- The file was expanded before. -/
  | known {visiting : List Path} {w : Workspace} {p : Path} {x : Expansion} :
      w.graph.expansion? p = some x → Visits tree visiting w p (.ok x.closure, w)
  /-- The file is being expanded. -/
  | cycle {visiting : List Path} {w : Workspace} {p : Path} :
      w.graph.expansion? p = none → Listed visiting p →
        Visits tree visiting w p (.error (.cyclicImport (visiting.dropWhile (!·.same p) ++ [p])), w)
  /-- The file is not loaded. -/
  | missing {visiting : List Path} {w : Workspace} {p : Path} {e : Error} :
      w.graph.expansion? p = none → ¬Listed visiting p → w.store.unit p = .error e →
        Visits tree visiting w p (.error e, w)
  /-- An import fails. -/
  | fails {visiting : List Path} {w after : Workspace} {p : Path} {unit : SourceUnit} {e : Error} :
      w.graph.expansion? p = none → ¬Listed visiting p → w.store.unit p = .ok unit →
        FollowsImports tree (visiting ++ [p]) p (p.parent?.getD w.store.base) [] [] w (Source.Import.references unit.content)
          (.error e, after) →
          Visits tree visiting w p (.error e, after)
  /-- All imports are followed, and the file joins the graph. -/
  | done {visiting : List Path} {w after : Workspace} {p : Path} {unit : SourceUnit} {closure : List Path}
      {edges : List ImportEdge} :
      w.graph.expansion? p = none → ¬Listed visiting p → w.store.unit p = .ok unit →
        FollowsImports tree (visiting ++ [p]) p (p.parent?.getD w.store.base) [] [] w (Source.Import.references unit.content)
          (.ok (closure, edges), after) →
          Visits tree visiting w p (.ok closure, { after with graph := after.graph.add ⟨p, closure, edges⟩ })

/-- What it comes to that the imports of a file are followed one by one, continuing a closure and edges. -/
inductive FollowsImports (tree : FileTree) : List Path → Path → Path → List Path → List ImportEdge → Workspace →
    List String → Result (List Path × List ImportEdge) × Workspace → Prop
  | nil {visiting : List Path} {importer directory : Path} {closure : List Path} {edges : List ImportEdge}
      {w : Workspace} : FollowsImports tree visiting importer directory closure edges w [] (.ok (closure, edges), w)
  /-- The reference is not found or not read. -/
  | unresolved {visiting : List Path} {importer directory : Path} {closure : List Path} {edges : List ImportEdge}
      {w after : Workspace} {reference : String} {rest : List String} {e : Error} :
      w.importUnit tree importer directory reference = (.error e, after) →
        FollowsImports tree visiting importer directory closure edges w (reference :: rest) (.error e, after)
  /-- The file that the reference leads to cannot be expanded. -/
  | fails {visiting : List Path} {importer directory : Path} {closure : List Path} {edges : List ImportEdge}
      {w middle after : Workspace} {reference : String} {rest : List String} {unit : SourceUnit} {e : Error} :
      w.importUnit tree importer directory reference = (.ok unit, middle) →
        Visits tree visiting middle unit.path (.error e, after) →
          FollowsImports tree visiting importer directory closure edges w (reference :: rest) (.error e, after)
  | step {visiting : List Path} {importer directory : Path} {closure nested : List Path} {edges : List ImportEdge}
      {w middle after : Workspace} {reference : String} {rest : List String} {unit : SourceUnit}
      {outcome : Result (List Path × List ImportEdge) × Workspace} :
      w.importUnit tree importer directory reference = (.ok unit, middle) →
        Visits tree visiting middle unit.path (.ok nested, after) →
          FollowsImports tree visiting importer directory (addNew (addNew closure nested) [unit.path])
            (edges ++ [⟨reference, unit.path⟩]) after rest outcome →
            FollowsImports tree visiting importer directory closure edges w (reference :: rest) outcome

end

variable {tree : FileTree} {visiting : List Path} {w middle after : Workspace} {p : Path}

/-! ## Runs that follow the rules -/

section

variable {importer directory : Path} {closure : List Path} {edges : List ImportEdge} {reference : String}
  {rest : List String} {unit : SourceUnit} {e : Error}

theorem expand_known {x : Expansion} (found : w.graph.expansion? p = some x) (room : Nat) :
    expand tree (room + 1) visiting w p = (.ok x.closure, w) := by
  unfold expand
  rw [found]

theorem expand_cycle (new : w.graph.expansion? p = none) (listed : Listed visiting p) (room : Nat) :
    expand tree (room + 1) visiting w p =
      (.error (.cyclicImport (visiting.dropWhile (!·.same p) ++ [p])), w) := by
  unfold expand
  rw [new]
  exact if_pos (Path.any_same_iff.mpr listed)

theorem expand_missing (new : w.graph.expansion? p = none) (notListed : ¬Listed visiting p)
    (absent : w.store.unit p = .error e) (room : Nat) : expand tree (room + 1) visiting w p = (.error e, w) := by
  unfold expand
  rw [new]
  dsimp only
  rw [if_neg fun listed => notListed (Path.any_same_iff.mp listed), absent]

/-- A file that is opened stands for its imports, and joins the graph if they are all followed. -/
theorem expand_opened (new : w.graph.expansion? p = none) (notListed : ¬Listed visiting p)
    (there : w.store.unit p = .ok unit) (room : Nat) :
    expand tree (room + 1) visiting w p =
      match followImports (expand tree room (visiting ++ [p])) tree p (p.parent?.getD w.store.base) [] [] w
          (Source.Import.references unit.content) with
      | (.error e, after) => (.error e, after)
      | (.ok (closure, edges), after) =>
        (.ok closure, { after with graph := after.graph.add ⟨p, closure, edges⟩ }) := by
  rw [expand, new]
  dsimp only
  rewrite [if_neg fun listed => notListed (Path.any_same_iff.mp listed), there]
  rfl

variable {expand : Workspace → Path → Result (List Path) × Workspace}

theorem followImports_unresolved (imported : w.importUnit tree importer directory reference = (.error e, after)) :
    followImports expand tree importer directory closure edges w (reference :: rest) = (.error e, after) := by
  unfold followImports
  rw [imported]

theorem followImports_imported (imported : w.importUnit tree importer directory reference = (.ok unit, middle)) :
    followImports expand tree importer directory closure edges w (reference :: rest) =
      match expand middle unit.path with
      | (.error e, after) => (.error e, after)
      | (.ok nested, after) =>
        followImports expand tree importer directory (addNew (addNew closure nested) [unit.path])
          (edges ++ [⟨reference, unit.path⟩]) after rest := by
  rewrite [followImports, imported]
  rfl

end

/-- What the rules derive is what every run with room enough comes to. -/
theorem Visits.exists_room {outcome : Result (List Path) × Workspace} (visits : Visits tree visiting w p outcome) :
    ∃ enough, ∀ room, enough ≤ room → expand tree room visiting w p = outcome := by
  refine @Visits.rec tree
    (fun visiting w p outcome _ => ∃ enough, ∀ room, enough ≤ room → expand tree room visiting w p = outcome)
    (fun visiting importer directory closure edges w references outcome _ =>
      ∃ enough, ∀ room, enough ≤ room →
        followImports (expand tree room visiting) tree importer directory closure edges w references = outcome)
    ?known ?cycle ?missing ?fails ?done ?nil ?unresolved ?importFails ?step visiting w p outcome visits
  case known =>
    intro visiting w p x found
    refine ⟨1, fun room enough => ?_⟩
    obtain ⟨more, rfl⟩ := Nat.exists_eq_add_of_le' enough
    exact expand_known found more
  case cycle =>
    intro visiting w p new listed
    refine ⟨1, fun room enough => ?_⟩
    obtain ⟨more, rfl⟩ := Nat.exists_eq_add_of_le' enough
    exact expand_cycle new listed more
  case missing =>
    intro visiting w p e new notListed absent
    refine ⟨1, fun room enough => ?_⟩
    obtain ⟨more, rfl⟩ := Nat.exists_eq_add_of_le' enough
    exact expand_missing new notListed absent more
  case fails =>
    intro visiting w after p unit e new notListed there _ ⟨inside, followed⟩
    refine ⟨inside + 1, fun room enough => ?_⟩
    obtain ⟨more, rfl⟩ := Nat.exists_eq_add_of_le' enough
    rw [← Nat.add_assoc, expand_opened new notListed there, followed _ (Nat.le_add_left ..)]
  case done =>
    intro visiting w after p unit closure edges new notListed there _ ⟨inside, followed⟩
    refine ⟨inside + 1, fun room enough => ?_⟩
    obtain ⟨more, rfl⟩ := Nat.exists_eq_add_of_le' enough
    rw [← Nat.add_assoc, expand_opened new notListed there, followed _ (Nat.le_add_left ..)]
  case nil =>
    intro visiting importer directory closure edges w
    exact ⟨0, fun _ _ => rfl⟩
  case unresolved =>
    intro visiting importer directory closure edges w after reference rest e imported
    exact ⟨0, fun _ _ => followImports_unresolved imported⟩
  case importFails =>
    intro visiting importer directory closure edges w middle after reference rest unit e imported _ ⟨inside, expanded⟩
    refine ⟨inside, fun room enough => ?_⟩
    rw [followImports_imported imported, expanded room enough]
  case step =>
    intro visiting importer directory closure nested edges w middle after reference rest unit outcome imported _ _
      ⟨inside, expanded⟩ ⟨behind, followed⟩
    refine ⟨max inside behind, fun room enough => ?_⟩
    rw [followImports_imported imported, expanded room ((Nat.le_max_left ..).trans enough)]
    exact followed room ((Nat.le_max_right ..).trans enough)

/-- The rules derive one outcome at most. -/
theorem Visits.unique {outcome other : Result (List Path) × Workspace} (visits : Visits tree visiting w p outcome)
    (visits' : Visits tree visiting w p other) : outcome = other := by
  obtain ⟨enough, same⟩ := visits.exists_room
  obtain ⟨enough', same'⟩ := visits'.exists_room
  rw [← same _ (Nat.le_max_left enough enough'), ← same' _ (Nat.le_max_right enough enough')]

/-- What the rules derive advances the workspace. -/
theorem Visits.expands {outcome : Result (List Path) × Workspace} (visits : Visits tree visiting w p outcome)
    (sound : Sound w.graph) : Expands visiting w p outcome := by
  obtain ⟨enough, same⟩ := visits.exists_room
  rw [← same enough le_rfl]
  exact expand_advances tree enough visiting w p sound

/-! ## Runs that are cut off -/

/-- Files that are being expanded: they are loaded, and in different places. -/
structure Opened (store : SourceStore) (visiting : List Path) : Prop where
  distinct : visiting.Pairwise fun p q => p.same q = false
  loaded : ∀ p ∈ visiting, (store.file? p).isSome = true

/-- Paths of different places stay so with one that is not among them. -/
theorem pairwise_concat (distinct : visiting.Pairwise fun p q => p.same q = false) (new : ¬Listed visiting p) :
    (visiting ++ [p]).Pairwise fun p q => p.same q = false := by
  refine List.pairwise_append.mpr ⟨distinct, List.pairwise_singleton .., fun q mem r single => ?_⟩
  rw [List.mem_singleton.mp single]
  exact Bool.eq_false_iff.mpr fun same => new ⟨q, mem, same⟩

theorem opened_nil (store : SourceStore) : Opened store [] := ⟨.nil, fun _ mem => by cases mem⟩

theorem Opened.of_retains {store after : SourceStore} (opened : Opened store visiting) (retains : store.Retains after) :
    Opened after visiting := by
  refine ⟨opened.distinct, fun p mem => ?_⟩
  obtain ⟨file, found⟩ := Option.isSome_iff_exists.mp (opened.loaded p mem)
  rw [retains found]
  rfl

theorem Opened.concat {store : SourceStore} {unit : SourceUnit} (opened : Opened store visiting)
    (new : ¬Listed visiting p) (there : store.unit p = .ok unit) : Opened store (visiting ++ [p]) := by
  refine ⟨pairwise_concat opened.distinct new, fun q mem => ?_⟩
  rcases List.mem_append.mp mem with before | last
  · exact opened.loaded q before
  · rw [List.mem_singleton.mp last, SourceStore.file?, SourceStore.unit_eq_ok_iff.mp there]
    rfl

/-- A number of files were open at once. -/
def CutOff (count : Nat) (store : SourceStore) : Prop := ∃ stack, stack.length = count ∧ Opened store stack

theorem CutOff.of_retains {count : Nat} {store after : SourceStore} (cut : CutOff count store)
    (retains : store.Retains after) : CutOff count after := by
  obtain ⟨stack, length, opened⟩ := cut
  exact ⟨stack, length, opened.of_retains retains⟩

theorem followImports_follows {expand : Workspace → Path → Result (List Path) × Workspace} {count : Nat}
    (expands : ∀ w p, Sound w.graph → Expands visiting w p (expand w p))
    (visits : ∀ w p, Sound w.graph → Opened w.store visiting →
      Visits tree visiting w p (expand w p) ∨ CutOff count (expand w p).2.store)
    (importer directory : Path) (references : List String) (sound : Sound w.graph) (opened : Opened w.store visiting)
    (closure : List Path) (edges : List ImportEdge) :
    FollowsImports tree visiting importer directory closure edges w references
        (followImports expand tree importer directory closure edges w references) ∨
      CutOff count (followImports expand tree importer directory closure edges w references).2.store := by
  induction references generalizing w closure edges with
  | nil => exact .inl .nil
  | cons reference rest ih =>
    have advances : Advances visiting w (w.importUnit tree importer directory reference).2 :=
      advances_importUnit sound importer directory reference
    cases imported : w.importUnit tree importer directory reference with
    | mk result middle =>
    rw [imported] at advances
    cases result with
    | error e =>
      rw [followImports_unresolved imported]
      exact .inl (.unresolved imported)
    | ok unit =>
      have opened' := opened.of_retains advances.retains
      have visited := visits middle unit.path advances.sound opened'
      have grown := (expands middle unit.path advances.sound).1
      rw [followImports_imported imported]
      cases expanded : expand middle unit.path with
      | mk result after =>
      rw [expanded] at visited grown
      cases result with
      | error e => exact visited.imp_left (.fails imported)
      | ok nested =>
        rcases visited with visited | cut
        · have later := ih grown.sound (opened'.of_retains grown.retains) (addNew (addNew closure nested) [unit.path])
            (edges ++ [⟨reference, unit.path⟩])
          exact later.imp_left (.step imported visited)
        · exact .inr (cut.of_retains (followImports_advances expands importer directory rest grown.sound rfl).1.retains)

/-- A run is derived by the rules, or as many files were open as it was allowed. -/
theorem expand_visits (room : Nat) (visiting : List Path) (w : Workspace) (p : Path) (sound : Sound w.graph)
    (opened : Opened w.store visiting) :
    Visits tree visiting w p (expand tree room visiting w p) ∨
      CutOff (visiting.length + room) (expand tree room visiting w p).2.store := by
  induction room generalizing visiting w p with
  | zero => exact .inr ⟨visiting, rfl, opened⟩
  | succ room ih =>
    cases found : w.graph.expansion? p with
    | some x =>
      rw [expand_known found]
      exact .inl (.known found)
    | none =>
      by_cases listed : Listed visiting p
      · rw [expand_cycle found listed]
        exact .inl (.cycle found listed)
      cases there : w.store.unit p with
      | error e =>
        rw [expand_missing found listed there]
        exact .inl (.missing found listed there)
      | ok unit =>
        have count : (visiting ++ [p]).length + room = visiting.length + (room + 1) := by
          rw [List.length_append, List.length_singleton]
          omega
        have followed := followImports_follows (fun w q => expand_advances tree room (visiting ++ [p]) w q)
          (fun w q => ih (visiting ++ [p]) w q) p (p.parent?.getD w.store.base)
          (Source.Import.references unit.content) sound (opened.concat listed there) [] []
        rw [expand_opened found listed there]
        rw [count] at followed
        generalize followImports (expand tree room (visiting ++ [p])) tree p (p.parent?.getD w.store.base) [] [] w
          (Source.Import.references unit.content) = outcome at followed
        obtain ⟨result, after⟩ := outcome
        cases result with
        | error e => exact followed.imp_left (.fails found listed there)
        | ok collected => exact followed.imp_left (.done found listed there)

/-! ## Room for all files -/

/-- What resolving references keeps of a store, expanding keeps. -/
theorem followImports_keeps {P : SourceStore → Prop}
    (kept : ∀ store reference directory, P store → P (store.resolve tree reference directory).2)
    {expand : Workspace → Path → Result (List Path) × Workspace}
    (keeps : ∀ w p, P w.store → P (expand w p).2.store) (importer directory : Path) (references : List String)
    (before : P w.store) (closure : List Path) (edges : List ImportEdge) :
    P (followImports expand tree importer directory closure edges w references).2.store := by
  induction references generalizing w closure edges with
  | nil => exact before
  | cons reference rest ih =>
    have resolved := kept w.store reference directory before
    have left := w.importUnit_snd tree importer directory reference
    cases imported : w.importUnit tree importer directory reference with
    | mk result middle =>
    rw [imported] at left
    obtain rfl : middle = _ := left
    cases result with
    | error e =>
      rw [followImports_unresolved imported]
      exact resolved
    | ok unit =>
      rw [followImports_imported imported]
      have expanded := keeps { w with store := (w.store.resolve tree reference directory).2 } unit.path resolved
      generalize expand _ unit.path = outcome at expanded
      obtain ⟨result, after⟩ := outcome
      cases result with
      | error e => exact expanded
      | ok nested => exact ih expanded _ _

theorem expand_keeps {P : SourceStore → Prop}
    (kept : ∀ store reference directory, P store → P (store.resolve tree reference directory).2) (room : Nat)
    (visiting : List Path) (w : Workspace) (p : Path) (before : P w.store) :
    P (expand tree room visiting w p).2.store := by
  induction room generalizing visiting w p with
  | zero => exact before
  | succ room ih =>
    cases found : w.graph.expansion? p with
    | some x =>
      rw [expand_known found]
      exact before
    | none =>
      by_cases listed : Listed visiting p
      · rw [expand_cycle found listed]
        exact before
      cases there : w.store.unit p with
      | error e =>
        rw [expand_missing found listed there]
        exact before
      | ok unit =>
        have followed := followImports_keeps kept (fun w q => ih (visiting ++ [p]) w q) p
          (p.parent?.getD w.store.base) (Source.Import.references unit.content) before [] []
        rw [expand_opened found listed there]
        generalize followImports (expand tree room (visiting ++ [p])) tree p (p.parent?.getD w.store.base) [] [] w
          (Source.Import.references unit.content) = outcome at followed
        obtain ⟨result, after⟩ := outcome
        cases result with
        | error e => exact followed
        | ok collected => exact followed

/-- The units of a store are in some places. -/
def Within (places : List Path) (store : SourceStore) : Prop := ∀ unit ∈ store.units, Listed places unit.path

/-- A file that a reference adds to a store is one of the tree. -/
theorem within_resolve (rooted : tree.Rooted) {places : List Path}
    (nodes : ∀ entry ∈ tree.nodes, Location.path entry.1 ∈ places) (store : SourceStore) (reference : String)
    (directory : Path) (within : Within places store) : Within places (store.resolve tree reference directory).2 := by
  have units : (store.locate tree reference directory).2.units = store.units := by
    obtain ⟨_, same, _⟩ := store.locate_snd tree reference directory
    rw [same]
  have located : Within places (store.locate tree reference directory).2 := by
    intro unit mem
    rw [units] at mem
    exact within unit mem
  unfold SourceStore.resolve
  dsimp only
  split
  · exact within
  generalize store.locate tree reference directory = outcome at located
  obtain ⟨result, store'⟩ := outcome
  cases result with
  | error searched => exact located
  | ok file =>
    dsimp only at located ⊢
    split
    · exact located
    next canonical loaded here =>
    obtain ⟨leads, text, rfl, reads⟩ := SourceStore.load_eq_ok here
    have canonicalListed : Listed places canonical := by
      cases there : store'.get? canonical with
      | some unit => exact (located unit (List.mem_of_find?_eq_some there)).congr (SourceStore.same_of_get? there)
      | none =>
        obtain ⟨location, _, rfl, _, node⟩ := rooted.exists_location leads (reads there)
        obtain ⟨_, entry, mem, rfl⟩ := FileTree.exists_entry node
        exact Path.listed_of_mem (nodes entry mem)
    intro unit mem
    rcases SourceStore.mem_units_add mem with ⟨old, listed, path, _⟩ | ⟨path, _⟩
    · rw [path]
      exact located old listed
    · rw [path]
      exact canonicalListed

/-- Paths in different places are no more than the places. -/
theorem length_le_of_distinct {stack places : List Path} (distinct : stack.Pairwise fun p q => p.same q = false)
    (within : ∀ p ∈ stack, Listed places p) : stack.length ≤ places.length := by
  induction stack generalizing places with
  | nil => exact Nat.zero_le _
  | cons p rest ih =>
    obtain ⟨apart, distinct⟩ := List.pairwise_cons.mp distinct
    obtain ⟨place, mem, here⟩ := within p (by simp)
    have others : ∀ q ∈ rest, Listed (places.erase place) q := by
      intro q behind
      obtain ⟨other, mem', there⟩ := within q (List.mem_cons_of_mem _ behind)
      refine ⟨other, ?_, there⟩
      refine (List.mem_erase_of_ne ?_).mpr mem'
      rintro rfl
      have same := Path.same_trans (Path.same_symm here) there
      rw [apart q behind] at same
      cases same
    have fewer := ih distinct others
    rw [List.length_erase_of_mem mem] at fewer
    have positive := List.length_pos_of_mem mem
    rw [List.length_cons]
    omega

/-- A call for a closure ends by the rules. -/
theorem closure_visits (rooted : tree.Rooted) (sound : Sound w.graph) (p : Path) :
    Visits tree [] w p (w.closure tree p) := by
  let room := w.store.units.length + tree.nodes.length + 1
  refine (expand_visits room [] w p sound (opened_nil w.store)).resolve_right ?_
  rintro ⟨stack, length, opened⟩
  let places := w.store.units.map (·.path) ++ tree.nodes.map (Location.path ·.1)
  have before : Within places w.store := by
    intro unit mem
    exact Path.listed_of_mem (List.mem_append_left _ (List.mem_map_of_mem mem))
  have nodes : ∀ entry ∈ tree.nodes, Location.path entry.1 ∈ places := by
    intro entry mem
    exact List.mem_append_right _ (List.mem_map.mpr ⟨entry, mem, rfl⟩)
  have within := expand_keeps (within_resolve rooted nodes) room [] w p before
  have fewer := length_le_of_distinct opened.distinct fun q mem => by
    obtain ⟨file, found⟩ := Option.isSome_iff_exists.mp (opened.loaded q mem)
    obtain ⟨unit, there, _⟩ := Option.map_eq_some_iff.mp found
    exact (within unit (List.mem_of_find?_eq_some there)).congr (SourceStore.same_of_get? there)
  simp only [places, room, List.length_append, List.length_map, List.length_nil] at fewer length
  omega

end Workspace

end SolidityBuild
