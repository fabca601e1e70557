import SolidityBuild.ImportGraph
import SolidityBuild.Proofs.SourceLoading
import Mathlib.Data.List.Infix
import Mathlib.Data.Prod.Basic
import Mathlib.Logic.Relation

/-!
# Import closures

A graph only grows, and every file that joins it has imports whose closures are in it already (`Sound`).
This holds however an expansion ends (`expand_advances`), so whatever has been expanded before, a recorded
closure has exactly the files that the recorded imports reach, in an order in which every file comes after
its own imports (`Sound.isClosure`).
-/

namespace SolidityBuild

/-! ## Lists of paths -/

/-- Whether a list has a path of the same place. -/
def Path.Listed (paths : List Path) (p : Path) : Prop := ∃ q ∈ paths, q.same p = true

namespace Path

theorem listed_of_mem {paths : List Path} {p : Path} (mem : p ∈ paths) : Listed paths p := ⟨p, mem, p.same_refl⟩

theorem Listed.congr {paths : List Path} {p q : Path} (listed : Listed paths p) (same : p.same q = true) :
    Listed paths q := by
  obtain ⟨r, mem, here⟩ := listed
  exact ⟨r, mem, same_trans here same⟩

theorem listed_append {paths more : List Path} {p : Path} :
    Listed (paths ++ more) p ↔ Listed paths p ∨ Listed more p := by
  simp only [Listed, List.mem_append, or_and_right, exists_or]

theorem listed_singleton {p q : Path} : Listed [q] p ↔ q.same p = true := by simp [Listed]

theorem any_same_iff {paths : List Path} {p : Path} : paths.any (·.same p) = true ↔ Listed paths p := by
  simp [Listed]

end Path

open SolidityBuild.Path (Listed listed_append listed_singleton)

namespace Workspace

theorem addNew_append (known paths more : List Path) :
    addNew known (paths ++ more) = addNew (addNew known paths) more := List.foldl_append

theorem addNew_concat (known paths : List Path) (p : Path) :
    addNew known (paths ++ [p]) =
      if (addNew known paths).any (·.same p) then addNew known paths else addNew known paths ++ [p] :=
  List.foldl_concat ..

/-- Collecting new paths keeps the first occurrence of each. -/
theorem addNew_nil (paths : List Path) : addNew [] paths = paths.eraseDupsBy Path.same := by
  have loop (known : List Path) : addNew known paths = List.eraseDupsBy.loop Path.same paths known.reverse := by
    induction paths generalizing known with
    | nil => simp [addNew, List.eraseDupsBy.loop]
    | cons p rest ih =>
      have turned : known.reverse.any p.same = known.any (·.same p) := by
        rw [List.any_reverse]
        congr 1
        funext q
        exact Bool.eq_iff_iff.mpr ⟨Path.same_symm, Path.same_symm⟩
      rw [List.eraseDupsBy.loop, turned]
      unfold addNew at ih ⊢
      rw [List.foldl_cons, ih]
      cases known.any (·.same p) <;> simp
  exact loop []

theorem listed_addNew {paths : List Path} {p : Path} : Listed (addNew [] paths) p ↔ Listed paths p := by
  induction paths using List.reverseRecOn with
  | nil => rfl
  | append_singleton paths q ih =>
    rw [addNew_concat, listed_append, listed_singleton, ← ih]
    split
    · next known =>
      refine ⟨.inl, Or.rec id fun same => ?_⟩
      exact (Path.any_same_iff.mp known).congr same
    · rw [listed_append, listed_singleton]

theorem pairwise_addNew (paths : List Path) : (addNew [] paths).Pairwise fun p q => p.same q = false := by
  induction paths using List.reverseRecOn with
  | nil => exact .nil
  | append_singleton paths q ih =>
    rw [addNew_concat]
    split
    · exact ih
    · next new =>
      refine List.pairwise_append.mpr ⟨ih, List.pairwise_singleton .., fun p mem r single => ?_⟩
      rw [List.mem_singleton.mp single]
      exact Bool.eq_false_iff.mpr fun same => new (List.any_eq_true.mpr ⟨p, mem, same⟩)

end Workspace

namespace ImportGraph

/-! ## What a graph records -/

/-- The closure of a file that was expanded. -/
def closure? (graph : ImportGraph) (p : Path) : Option (List Path) := (graph.expansion? p).map (·.closure)

/-- Whether a recorded import of a file leads to another one. -/
def Imports (graph : ImportGraph) (p q : Path) : Prop := ∃ edge ∈ graph.edges p, edge.target.same q = true

/-- Every file of a list comes after what it imports. -/
def Ordered (graph : ImportGraph) (paths : List Path) : Prop :=
  ∀ before q, before ++ [q] <+: paths → ∀ edge ∈ graph.edges q, Listed before edge.target

/-- Closures of imports, each followed by the imported file. -/
def inTurn (edges : List ImportEdge) (nested : List (List Path)) : List Path :=
  (List.zipWith (fun edge closure => closure ++ [edge.target]) edges nested).flatten

/-- Some closures are the recorded ones of some imports. -/
def Records (graph : ImportGraph) : List ImportEdge → List (List Path) → Prop :=
  List.Forall₂ fun edge closure => graph.closure? edge.target = some closure

/-- What the closure of a file has to be, by the imports that a graph records. -/
structure IsClosure (graph : ImportGraph) (p : Path) (closure : List Path) : Prop where
  recorded : ∀ q ∈ p :: closure, (graph.expansion? q).isSome = true
  distinct : closure.Pairwise fun q r => q.same r = false
  proper : ¬Listed closure p
  /-- The closure has the files that are reached by one or more imports. -/
  reached : ∀ q, Listed closure q ↔ Relation.TransGen graph.Imports p q
  ordered : graph.Ordered closure
  /-- The closures of the imports in turn, each followed by the import; first occurrences stay. -/
  composed : ∃ nested, graph.Records (graph.edges p) nested ∧
    closure = (inTurn (graph.edges p) nested).eraseDupsBy Path.same

section

variable {graph : ImportGraph} {p q : Path}

theorem expansion?_congr (graph : ImportGraph) (same : p.same q = true) : graph.expansion? p = graph.expansion? q := by
  simp only [expansion?, Path.same_right same]

theorem edges_congr (graph : ImportGraph) (same : p.same q = true) : graph.edges p = graph.edges q := by
  unfold edges
  rw [graph.expansion?_congr same]

theorem edges_of_expansion? {x : Expansion} (found : graph.expansion? p = some x) : graph.edges p = x.edges := by
  unfold edges
  rw [found]

theorem closure?_eq_some_iff {closure : List Path} :
    graph.closure? p = some closure ↔ ∃ x, graph.expansion? p = some x ∧ x.closure = closure := by
  simp [closure?]

theorem isSome_of_closure? {closure : List Path} (found : graph.closure? p = some closure) :
    (graph.expansion? p).isSome = true := by
  obtain ⟨x, there, _⟩ := closure?_eq_some_iff.mp found
  simp [there]

/-- Only expanded files have imports. -/
theorem isSome_of_mem_edges {edge : ImportEdge} (mem : edge ∈ graph.edges p) : (graph.expansion? p).isSome = true := by
  unfold edges at mem
  split at mem
  · next found => simp [found]
  · cases mem

/-- A file reaches what its imports are and what they reach. -/
theorem transGen_imports_iff :
    Relation.TransGen graph.Imports p q ↔
      ∃ edge ∈ graph.edges p, Relation.TransGen graph.Imports edge.target q ∨ edge.target.same q = true := by
  constructor
  · intro reaches
    obtain ⟨r, ⟨edge, mem, same⟩, onwards⟩ := Relation.TransGen.head'_iff.mp reaches
    refine ⟨edge, mem, ?_⟩
    rcases onwards.cases_head with rfl | ⟨next, ⟨edge', mem', same'⟩, rest⟩
    · exact .inr same
    · rw [← graph.edges_congr same] at mem'
      exact .inl (.head' ⟨edge', mem', same'⟩ rest)
  · rintro ⟨edge, mem, onwards | same⟩
    · exact .head ⟨edge, mem, edge.target.same_refl⟩ onwards
    · exact .single ⟨edge, mem, same⟩

theorem Records.exists_closure {edges : List ImportEdge} {nested : List (List Path)}
    (records : graph.Records edges nested) {edge : ImportEdge} (mem : edge ∈ edges) :
    ∃ closure, graph.closure? edge.target = some closure := by
  induction records with
  | nil => cases mem
  | cons here _ ih =>
    rcases List.mem_cons.mp mem with rfl | later
    · exact ⟨_, here⟩
    · exact ih later

theorem IsClosure.isSome {closure : List Path} (closed : graph.IsClosure p closure) (listed : Listed closure q) :
    (graph.expansion? q).isSome = true := by
  obtain ⟨r, mem, same⟩ := listed
  rw [← graph.expansion?_congr same]
  exact closed.recorded r (List.mem_cons_of_mem _ mem)

theorem inTurn_cons (edge : ImportEdge) (edges : List ImportEdge) (closure : List Path) (nested : List (List Path)) :
    inTurn (edge :: edges) (closure :: nested) = closure ++ [edge.target] ++ inTurn edges nested := rfl

theorem listed_inTurn {edges : List ImportEdge} {nested : List (List Path)} (records : graph.Records edges nested) :
    Listed (inTurn edges nested) p ↔ ∃ edge ∈ edges, ∃ closure, graph.closure? edge.target = some closure ∧
      (Listed closure p ∨ edge.target.same p = true) := by
  induction records with
  | nil => simp [inTurn, Listed]
  | @cons edge closure edges nested here _ ih =>
    rw [inTurn_cons, listed_append, listed_append, listed_singleton, ih]
    simp only [List.mem_cons, exists_eq_or_imp, here, Option.some.injEq, exists_eq_left']

/-! ## Order -/

theorem ordered_concat {paths : List Path} :
    graph.Ordered (paths ++ [p]) ↔ graph.Ordered paths ∧ ∀ edge ∈ graph.edges p, Listed paths edge.target := by
  constructor
  · intro ordered
    exact ⟨fun before q part => ordered before q (part.trans (List.prefix_append ..)),
      ordered paths p (List.prefix_refl _)⟩
  · rintro ⟨ordered, last⟩ before q part
    rcases List.prefix_concat_iff.mp part with whole | inside
    · obtain ⟨rfl, same⟩ := List.append_inj' whole rfl
      cases same
      exact last
    · exact ordered before q inside

theorem Ordered.append {paths more : List Path} (ordered : graph.Ordered paths) (ordered' : graph.Ordered more) :
    graph.Ordered (paths ++ more) := by
  induction more using List.reverseRecOn with
  | nil => rwa [List.append_nil]
  | append_singleton more q ih =>
    obtain ⟨others, last⟩ := ordered_concat.mp ordered'
    rw [← List.append_assoc]
    exact ordered_concat.mpr ⟨ih others, fun edge mem => listed_append.mpr (.inr (last edge mem))⟩

theorem Ordered.addNew {paths : List Path} (ordered : graph.Ordered paths) :
    graph.Ordered (Workspace.addNew [] paths) := by
  induction paths using List.reverseRecOn with
  | nil => exact ordered
  | append_singleton paths q ih =>
    obtain ⟨others, last⟩ := ordered_concat.mp ordered
    rw [Workspace.addNew_concat]
    split
    · exact ih others
    · exact ordered_concat.mpr ⟨ih others, fun edge mem => Workspace.listed_addNew.mpr (last edge mem)⟩

/-- Closures of imports, each followed by the import, are in order. -/
theorem ordered_inTurn {after : ImportGraph} {edges : List ImportEdge} {nested : List (List Path)}
    (records : graph.Records edges nested)
    (closures : ∀ q closure, graph.closure? q = some closure → after.IsClosure q closure) :
    after.Ordered (inTurn edges nested) := by
  induction records with
  | nil =>
    intro before q part
    have short := part.length_le
    simp [inTurn] at short
  | @cons edge closure edges nested here _ ih =>
    have first := closures _ _ here
    refine Ordered.append (ordered_concat.mpr ⟨first.ordered, fun edge' mem => ?_⟩) ih
    exact (first.reached _).mpr (.single ⟨edge', mem, edge'.target.same_refl⟩)

end

/-! ## Growth -/

/-- What was expanded stays expanded. -/
def Grows (graph after : ImportGraph) : Prop := graph.expansions <+: after.expansions

section

variable {graph after : ImportGraph} {x : Expansion} {p q : Path} {closure : List Path}

theorem Grows.expansion? (grows : graph.Grows after) (found : graph.expansion? p = some x) :
    after.expansion? p = some x :=
  grows.find?_eq_some found

theorem Grows.isSome (grows : graph.Grows after) (found : (graph.expansion? p).isSome = true) :
    (after.expansion? p).isSome = true := by
  obtain ⟨x, there⟩ := Option.isSome_iff_exists.mp found
  simp [grows.expansion? there]

theorem Grows.edges (grows : graph.Grows after) (found : (graph.expansion? p).isSome = true) :
    after.edges p = graph.edges p := by
  obtain ⟨x, there⟩ := Option.isSome_iff_exists.mp found
  rw [edges_of_expansion? there, edges_of_expansion? (grows.expansion? there)]

theorem Grows.closure? (grows : graph.Grows after) (found : graph.closure? p = some closure) :
    after.closure? p = some closure := by
  obtain ⟨x, there, same⟩ := closure?_eq_some_iff.mp found
  exact closure?_eq_some_iff.mpr ⟨x, grows.expansion? there, same⟩

theorem Grows.records {edges : List ImportEdge} {nested : List (List Path)} (grows : graph.Grows after)
    (records : graph.Records edges nested) : after.Records edges nested :=
  records.imp fun _ _ found => grows.closure? found

/-- Whatever else is expanded, a closure stays one. -/
theorem Grows.isClosure (grows : graph.Grows after) (closed : graph.IsClosure p closure) :
    after.IsClosure p closure := by
  have known : (graph.expansion? p).isSome = true := closed.recorded p (by simp)
  -- A file that is reached is recorded, so its imports are the same in the larger graph.
  have reaches {q : Path} : Relation.TransGen after.Imports p q ↔ Relation.TransGen graph.Imports p q := by
    constructor
    · intro reaches
      induction reaches with
      | single step =>
        unfold Imports at step
        rw [grows.edges known] at step
        exact .single step
      | tail _ step ih =>
        unfold Imports at step
        rw [grows.edges (closed.isSome ((closed.reached _).mpr ih))] at step
        exact .tail ih step
    · refine Relation.TransGen.mono (fun q r step => ?_) p q
      obtain ⟨edge, mem, same⟩ := step
      refine ⟨edge, ?_, same⟩
      rwa [grows.edges (isSome_of_mem_edges mem)]
  refine ⟨fun q mem => grows.isSome (closed.recorded q mem), closed.distinct, closed.proper,
    fun q => (closed.reached q).trans reaches.symm, fun before q part edge mem => ?_, ?_⟩
  · have inside : q ∈ closure := part.subset (by simp)
    rw [grows.edges (closed.recorded q (List.mem_cons_of_mem _ inside))] at mem
    exact closed.ordered before q part edge mem
  · rw [grows.edges known]
    obtain ⟨nested, records, same⟩ := closed.composed
    exact ⟨nested, grows.records records, same⟩

theorem grows_add (graph : ImportGraph) (x : Expansion) : graph.Grows (graph.add x) := List.prefix_append ..

theorem expansion?_add (graph : ImportGraph) (x : Expansion) (p : Path) :
    (graph.add x).expansion? p = (graph.expansion? p).or (if x.file.same p then some x else none) := by
  simp only [add, expansion?, List.find?_append, List.find?_singleton]

end

/-! ## Sound graphs -/

/-- An expansion of a new file whose imports have closures already. -/
structure Fits (graph : ImportGraph) (x : Expansion) : Prop where
  new : graph.expansion? x.file = none
  composed : ∃ nested, graph.Records x.edges nested ∧ x.closure = (inTurn x.edges nested).eraseDupsBy Path.same

/-- A graph that came about by expansions that fit. -/
inductive Sound : ImportGraph → Prop
  | empty : Sound .empty
  | add {graph : ImportGraph} {x : Expansion} : Sound graph → graph.Fits x → Sound (graph.add x)

/-- The closure of a file that fits, if all closures before are right. -/
theorem Fits.isClosure {graph : ImportGraph} {x : Expansion} {p : Path} (fits : graph.Fits x)
    (closures : ∀ q closure, graph.closure? q = some closure → graph.IsClosure q closure)
    (same : x.file.same p = true) : (graph.add x).IsClosure p x.closure := by
  have grows := graph.grows_add x
  have closures' q closure (found : graph.closure? q = some closure) : (graph.add x).IsClosure q closure :=
    grows.isClosure (closures q closure found)
  have new : graph.expansion? p = none := by rw [← graph.expansion?_congr same]; exact fits.new
  have found : (graph.add x).expansion? p = some x := by simp [expansion?_add, new, same]
  have edges : (graph.add x).edges p = x.edges := edges_of_expansion? found
  obtain ⟨nested, records, composed⟩ := fits.composed
  rw [← Workspace.addNew_nil] at composed
  have listed {q : Path} : Listed x.closure q ↔ ∃ edge ∈ x.edges, ∃ closure,
      graph.closure? edge.target = some closure ∧ (Listed closure q ∨ edge.target.same q = true) := by
    rw [composed, Workspace.listed_addNew, listed_inTurn records]
  have known {q : Path} (inside : Listed x.closure q) : (graph.expansion? q).isSome = true := by
    obtain ⟨edge, _, closure, here, nested | same⟩ := listed.mp inside
    · exact (closures _ _ here).isSome nested
    · rw [← graph.expansion?_congr same]
      exact isSome_of_closure? here
  refine ⟨fun q mem => ?_, ?_, fun inside => ?_, fun q => ?_, ?_, ?_⟩
  · rcases List.mem_cons.mp mem with rfl | inside
    · simp [found]
    · exact grows.isSome (known (Path.listed_of_mem inside))
  · rw [composed]
    exact Workspace.pairwise_addNew _
  · have old := known inside
    rw [new] at old
    cases old
  · rw [listed, transGen_imports_iff, edges]
    constructor
    · rintro ⟨edge, mem, closure, here, reached⟩
      rw [(closures' _ _ here).reached] at reached
      exact ⟨edge, mem, reached⟩
    · rintro ⟨edge, mem, reached⟩
      obtain ⟨closure, here⟩ := records.exists_closure mem
      rw [← (closures' _ _ here).reached] at reached
      exact ⟨edge, mem, closure, here, reached⟩
  · rw [composed]
    exact (ordered_inTurn records closures').addNew
  · rw [edges]
    exact ⟨nested, grows.records records, composed.trans (Workspace.addNew_nil _)⟩

/-- In a graph that came about by expansions that fit, all recorded closures are right. -/
theorem Sound.isClosure {graph : ImportGraph} (sound : Sound graph) {p : Path} {closure : List Path}
    (found : graph.closure? p = some closure) : graph.IsClosure p closure := by
  induction sound generalizing p closure with
  | empty => cases found
  | @add graph x _ fits ih =>
    obtain ⟨y, there, rfl⟩ := closure?_eq_some_iff.mp found
    rw [expansion?_add] at there
    cases old : graph.expansion? p with
    | some z =>
      rw [old, Option.some_or, Option.some.injEq] at there
      exact (graph.grows_add x).isClosure (ih (closure?_eq_some_iff.mpr ⟨z, old, by rw [there]⟩))
    | none =>
      rw [old, Option.none_or] at there
      split at there
      · next same =>
        cases there
        exact fits.isClosure (fun _ _ => ih) same
      · cases there

end ImportGraph

/-! ## Expanding -/

namespace Workspace

open ImportGraph (Sound Fits Records inTurn)

/-- The recorded imports of a file are the references of its loaded content in textual order. -/
def ReadFrom (store : SourceStore) (x : Expansion) : Prop :=
  ∃ unit, store.get? x.file = some unit ∧
    x.edges.map (·.reference) = Source.Import.references unit.content

theorem ReadFrom.of_retains {store after : SourceStore} {x : Expansion} (read : ReadFrom store x)
    (retains : store.Retains after) : ReadFrom after x := by
  obtain ⟨unit, found, references⟩ := read
  obtain ⟨unit', found', _, content⟩ := retains.exists_get? found
  exact ⟨unit', found', content ▸ references⟩

/-- What expanding does to a workspace, whether it succeeds or not: it adds expansions that fit, but none of
the files `visiting` that are being expanded. -/
structure Advances (visiting : List Path) (w after : Workspace) : Prop where
  sound : Sound after.graph
  grows : w.graph.Grows after.graph
  pending : ∀ q, Listed visiting q → w.graph.expansion? q = none → after.graph.expansion? q = none
  base : after.store.base = w.store.base
  retains : w.store.Retains after.store
  readFrom : ∀ x ∈ after.graph.expansions, x ∈ w.graph.expansions ∨ ReadFrom after.store x

variable {visiting : List Path} {w middle after : Workspace} {tree : FileTree}

theorem Advances.refl (sound : Sound w.graph) : Advances visiting w w :=
  ⟨sound, List.prefix_refl _, fun _ _ => id, rfl, .refl _, fun _ => .inl⟩

theorem Advances.trans (first : Advances visiting w middle) (second : Advances visiting middle after) :
    Advances visiting w after := by
  refine ⟨second.sound, first.grows.trans second.grows,
    fun q listed new => second.pending q listed (first.pending q listed new), second.base.trans first.base,
    first.retains.trans second.retains, fun x mem => ?_⟩
  rcases second.readFrom x mem with before | read
  · rcases first.readFrom x before with older | read
    · exact .inl older
    · exact .inr (read.of_retains second.retains)
  · exact .inr read

theorem importUnit_snd (w : Workspace) (tree : FileTree) (importer directory : Path) (reference : String) :
    (w.importUnit tree importer directory reference).2 =
      { w with store := (w.store.resolve tree reference directory).2 } := by
  unfold importUnit
  split
  · next same => rw [same]
  · next same => rw [same]

theorem resolve_of_importUnit {importer directory : Path} {reference : String} {unit : SourceUnit}
    (found : (w.importUnit tree importer directory reference).1 = .ok unit) :
    (w.store.resolve tree reference directory).1 = .ok unit := by
  unfold importUnit at found
  split at found
  · cases found
  · next same =>
    rw [same]
    exact found

/-- Resolving a reference leaves the graph as it is. -/
theorem advances_importUnit (sound : Sound w.graph) (importer directory : Path) (reference : String) :
    Advances visiting w (w.importUnit tree importer directory reference).2 := by
  have advances : Advances visiting w { w with store := (w.store.resolve tree reference directory).2 } :=
    ⟨sound, List.prefix_refl _, fun _ _ => id, w.store.base_resolve .., w.store.retains_resolve .., fun _ => .inl⟩
  unfold importUnit
  split
  · next same => rw [same] at advances; exact advances
  · next same => rw [same] at advances; exact advances

/-- Expanding `p` advances the workspace, and the answer is the closure that is recorded then. -/
def Expands (visiting : List Path) (w : Workspace) (p : Path) (outcome : Result (List Path) × Workspace) : Prop :=
  Advances visiting w outcome.2 ∧ ∀ closure, outcome.1 = .ok closure → outcome.2.graph.closure? p = some closure

/-- Following imports advances the workspace, and the answer continues with imports whose closures are
recorded then. -/
theorem followImports_advances {expand : Workspace → Path → Result (List Path) × Workspace}
    (expands : ∀ w p, Sound w.graph → Expands visiting w p (expand w p)) (importer directory : Path)
    (references : List String) (sound : Sound w.graph) {closure : List Path} {edges : List ImportEdge}
    {outcome : Result (List Path × List ImportEdge)}
    (followed : followImports expand tree importer directory closure edges w references = (outcome, after)) :
    Advances visiting w after ∧ ∀ closure' edges', outcome = .ok (closure', edges') →
      ∃ new nested, edges' = edges ++ new ∧ new.map (·.reference) = references ∧
        after.graph.Records new nested ∧ closure' = addNew closure (inTurn new nested) := by
  induction references generalizing w closure edges with
  | nil =>
    cases followed
    refine ⟨.refl sound, fun closure' edges' done => ?_⟩
    cases done
    exact ⟨[], [], by simp, rfl, .nil, rfl⟩
  | cons reference rest ih =>
    have imported : Advances visiting w (w.importUnit tree importer directory reference).2 :=
      advances_importUnit sound importer directory reference
    unfold followImports at followed
    split at followed
    · next same =>
      cases followed
      rw [same] at imported
      exact ⟨imported, fun _ _ failed => by cases failed⟩
    next unit w₁ same =>
    rw [same] at imported
    obtain ⟨advances, recorded⟩ := expands w₁ unit.path imported.sound
    split at followed
    · next same =>
      cases followed
      rw [same] at advances
      exact ⟨imported.trans advances, fun _ _ failed => by cases failed⟩
    next nested w₂ same =>
    rw [same] at advances recorded
    obtain ⟨later, result⟩ := ih advances.sound followed
    refine ⟨imported.trans (advances.trans later), fun closure' edges' done => ?_⟩
    obtain ⟨new, closures, rfl, rfl, records, rfl⟩ := result closure' edges' done
    refine ⟨⟨reference, unit.path⟩ :: new, nested :: closures, ?_, rfl, ?_, ?_⟩
    · rw [List.append_assoc, List.singleton_append]
    · exact .cons (later.grows.closure? (recorded nested rfl)) records
    · rw [ImportGraph.inTurn_cons, ← addNew_append, ← addNew_append, List.append_assoc]

/-- Recording the file that was expanded, once all its imports have been followed. -/
theorem Advances.record {x : Expansion} (advances : Advances (visiting ++ [x.file]) w after)
    (new : w.graph.expansion? x.file = none) (notVisited : ¬Listed visiting x.file)
    (composed : ∃ nested, after.graph.Records x.edges nested ∧
      x.closure = (inTurn x.edges nested).eraseDupsBy Path.same)
    (read : ReadFrom after.store x) :
    Expands visiting w x.file (.ok x.closure, { after with graph := after.graph.add x }) := by
  have unrecorded : after.graph.expansion? x.file = none :=
    advances.pending x.file (listed_append.mpr (.inr (listed_singleton.mpr x.file.same_refl))) new
  refine ⟨⟨.add advances.sound ⟨unrecorded, composed⟩, advances.grows.trans (after.graph.grows_add x),
    fun q listed newer => ?_, advances.base, advances.retains, fun y mem => ?_⟩, fun closure done => ?_⟩
  · rw [ImportGraph.expansion?_add, advances.pending q (listed_append.mpr (.inl listed)) newer, Option.none_or, if_neg]
    exact fun same => notVisited (listed.congr (Path.same_symm same))
  · rcases List.mem_append.mp mem with before | single
    · exact advances.readFrom y before
    · rw [List.mem_singleton.mp single]
      exact .inr read
  · cases done
    exact ImportGraph.closure?_eq_some_iff.mpr ⟨x, by simp [ImportGraph.expansion?_add, unrecorded, Path.same_refl], rfl⟩

/-- Expanding a file advances the workspace, however it ends. -/
theorem expand_advances (tree : FileTree) (room : Nat) (visiting : List Path) (w : Workspace) (p : Path)
    (sound : Sound w.graph) : Expands visiting w p (expand tree room visiting w p) := by
  induction room generalizing visiting w p with
  | zero => exact ⟨.refl sound, fun _ failed => by cases failed⟩
  | succ room ih =>
    unfold expand
    split
    · next x found =>
      refine ⟨.refl sound, fun closure done => ?_⟩
      cases done
      exact ImportGraph.closure?_eq_some_iff.mpr ⟨x, found, rfl⟩
    next new =>
    split
    · exact ⟨.refl sound, fun _ failed => by cases failed⟩
    next notVisited =>
    split
    · exact ⟨.refl sound, fun _ failed => by cases failed⟩
    next unit loaded =>
    dsimp only
    -- The file itself is not recorded by its imports, because it is being visited.
    have weaken {w after : Workspace} (advances : Advances (visiting ++ [p]) w after) : Advances visiting w after :=
      { advances with pending := fun q listed => advances.pending q (listed_append.mpr (.inl listed)) }
    split
    · next followed =>
      have advances := (followImports_advances (fun w q => ih (visiting ++ [p]) w q) p _ _ sound followed).1
      exact ⟨weaken advances, fun _ failed => by cases failed⟩
    next closure edges after followed =>
    obtain ⟨advances, result⟩ :=
      followImports_advances (fun w q => ih (visiting ++ [p]) w q) p _ _ sound followed
    obtain ⟨_, nested, rfl, references, records, collected⟩ := result closure edges rfl
    have read : ReadFrom w.store ⟨p, closure, _⟩ := ⟨unit, SourceStore.unit_eq_ok_iff.mp loaded, references⟩
    exact advances.record new (fun listed => notVisited (Path.any_same_iff.mpr listed))
      ⟨nested, records, collected.trans (addNew_nil _)⟩ (read.of_retains advances.retains)

/-- Asking for a closure advances the workspace, however it ends. -/
theorem closure_advances (tree : FileTree) (w : Workspace) (p : Path) (sound : Sound w.graph) :
    Expands [] w p (w.closure tree p) :=
  expand_advances tree _ [] w p sound

end Workspace

/-! ## Closures -/

/-- A graph after any calls for closures, with any stores and trees, be they successful or not. -/
inductive ImportGraph.Reached : ImportGraph → Prop
  | empty : Reached .empty
  | closure {graph : ImportGraph} (store : SourceStore) (tree : FileTree) (p : Path) :
      Reached graph → Reached (Workspace.closure ⟨store, graph⟩ tree p).2.graph

theorem ImportGraph.Reached.sound {graph : ImportGraph} (reached : graph.Reached) : graph.Sound := by
  induction reached with
  | empty => exact .empty
  | closure store tree p _ ih => exact (Workspace.closure_advances tree ⟨store, _⟩ p ih).1.sound

namespace Workspace

variable {w after : Workspace} {tree : FileTree} {p : Path} {closure : List Path}

/-- A recorded closure is what any further call answers, and the call changes nothing. -/
theorem closure_of_closure? (found : w.graph.closure? p = some closure) (tree : FileTree) :
    w.closure tree p = (.ok closure, w) := by
  obtain ⟨x, there, rfl⟩ := ImportGraph.closure?_eq_some_iff.mp found
  unfold Workspace.closure expand
  rw [there]

/-- Whatever was expanded before, with whatever success, a closure that is answered has all files that the
imports reach, each once and after its own imports; it is made up of the closures of the imports, and these
are answered from then on. What the call recorded, like what was read from the same store before, has the
imports of the loaded files in textual order. -/
theorem closure_isClosure (reached : w.graph.Reached) (answered : w.closure tree p = (.ok closure, after)) :
    after.graph.IsClosure p closure ∧
      (∀ q nested, after.graph.closure? q = some nested → ∀ other, after.closure other q = (.ok nested, after)) ∧
      ∀ x ∈ after.graph.expansions, x ∉ w.graph.expansions ∨ ReadFrom w.store x → ReadFrom after.store x := by
  obtain ⟨advances, recorded⟩ := closure_advances tree w p reached.sound
  rw [answered] at advances recorded
  refine ⟨advances.sound.isClosure (recorded closure rfl), fun q nested => closure_of_closure?, fun x mem read => ?_⟩
  rcases read with new | old
  · exact (advances.readFrom x mem).resolve_left new
  · exact old.of_retains advances.retains

namespace Diamond

/-- A file with two imports that share a third one, and a file with an import that is missing. -/
def project : FileTree :=
  ⟨[(["p"], .directory), (["p", "contracts"], .directory),
    (["p", "contracts", "A.sol"], .file (.text "import \"./B.sol\";\nimport \"./C.sol\";\n")),
    (["p", "contracts", "B.sol"], .file (.text "import \"./D.sol\";\n")),
    (["p", "contracts", "C.sol"], .file (.text "import \"./D.sol\";\n")),
    (["p", "contracts", "D.sol"], .file (.text "contract D {}\n")),
    (["p", "contracts", "X.sol"], .file (.text "import \"./B.sol\";\nimport \"./E.sol\";\n"))], [], by decide⟩

def path (name : String) : Path := .ofText ("/p/contracts/" ++ name)

/-- The store with the two files that are expanded. -/
def store : SourceStore :=
  [path "A.sol", path "X.sol"].foldl (fun store p => store.add p ((project.readText p).toOption.getD "") .primary)
    (.new (.ofText "/p") Dict.empty)

/-- What the failure to expand the second file leaves. -/
def failed : Workspace := (Workspace.closure ⟨store, .empty⟩ project (path "X.sol")).2

end Diamond

theorem closure_isClosure_diamond :
    (Workspace.closure ⟨Diamond.store, .empty⟩ Diamond.project (Diamond.path "X.sol")).1.toOption = none ∧
      (Diamond.failed.graph.closure? (Diamond.path "B.sol")).isSome ∧
      (Diamond.failed.closure Diamond.project (Diamond.path "A.sol")).2.graph.IsClosure (Diamond.path "A.sol")
        [Diamond.path "D.sol", Diamond.path "B.sol", Diamond.path "C.sol"] := by
  have answered : (Diamond.failed.closure Diamond.project (Diamond.path "A.sol")).1 =
      .ok [Diamond.path "D.sol", Diamond.path "B.sol", Diamond.path "C.sol"] := by decide +kernel
  have reached : Diamond.failed.graph.Reached := by
    rw [Diamond.failed]
    exact .closure _ _ _ .empty
  exact ⟨by decide +kernel, by decide +kernel, (closure_isClosure reached (Prod.fst_eq_iff.mp answered)).1⟩

end Workspace

end SolidityBuild
