import SolidityBuild.Proofs.Expansion
import SolidityBuild.Proofs.KnownReferences
import Mathlib.Data.List.Chain
import Mathlib.Data.List.TakeWhile

/-!
# Cycles of imports

While files are expanded, those that are being expanded import each other in turn, by references that the store
knows (`Linked`). So a call that fails has followed imports up to the file that closes a cycle, or up to one that
has an import that cannot be resolved (`Visits.stops`). A call that succeeds leaves a graph with all files that are
reached, and there are no cycles in a graph (`Ready.acyclic`). Together: a call answers a closure exactly if no cycle
is reached (`closure_exact`).
-/

namespace SolidityBuild

open SolidityBuild.Path (Listed listed_append listed_singleton)

namespace SourceStore

variable {store after : SourceStore} {tree : FileTree} {f g start : Path × String} {p q : Path}

/-! ## Imports as a store answers them -/

/-- The directory from which the references of a file are taken. -/
def directoryOf (store : SourceStore) (file : Path) : Path := file.parent?.getD store.base

/-- Whether a reference of one file leads to another file. A file is given by its path and its content. -/
def Imports (store : SourceStore) (tree : FileTree) (f g : Path × String) : Prop :=
  ∃ reference ∈ Source.Import.references f.2,
    answer (store.resolve tree reference (store.directoryOf f.1)).1 = .ok g

/-- Whether all references of a file lead to files. -/
def Resolves (store : SourceStore) (tree : FileTree) (f : Path × String) : Prop :=
  ∀ reference ∈ Source.Import.references f.2,
    ∃ g, answer (store.resolve tree reference (store.directoryOf f.1)).1 = .ok g

/-- Whether a file is reached by imports from another one. -/
def Reaches (store : SourceStore) (tree : FileTree) : Path × String → Path × String → Prop :=
  Relation.ReflTransGen (store.Imports tree)

/-- Whether a file is reached that imports itself through other files. -/
def ReachesCycle (store : SourceStore) (tree : FileTree) (start : Path × String) : Prop :=
  ∃ f, store.Reaches tree start f ∧ Relation.TransGen (store.Imports tree) f f

/-- Whether one path is of a loaded file that imports the loaded file of another path. -/
def Leads (store : SourceStore) (tree : FileTree) (p q : Path) : Prop :=
  ∃ f g, store.file? p = some f ∧ store.file? q = some g ∧ store.Imports tree f g

/-- What is to be answered as a cycle of imports that is reached from a file. -/
structure IsCycle (store : SourceStore) (tree : FileTree) (start : Path × String) (cycle : List Path) : Prop where
  entries : 2 ≤ cycle.length
  closed : ∃ first last, cycle.head? = some first ∧ cycle.getLast? = some last ∧ first.same last = true
  /-- No entry but the last one repeats another one. -/
  distinct : cycle.dropLast.Pairwise fun p q => p.same q = false
  imports : cycle.IsChain (store.Leads tree)
  reached : ∃ first f, cycle.head? = some first ∧ store.file? first = some f ∧ store.Reaches tree start f

/-- Along imports, all files are reached. -/
theorem exists_reaches {rest : List Path} (chain : (p :: rest).IsChain (store.Leads tree))
    (found : store.file? p = some f) (mem : q ∈ p :: rest) :
    ∃ g, store.file? q = some g ∧ store.Reaches tree f g := by
  induction rest generalizing p f with
  | nil =>
    rw [List.mem_singleton.mp mem]
    exact ⟨f, found, .refl⟩
  | cons next rest ih =>
    obtain ⟨⟨f', g, found', there, imports⟩, chain⟩ := List.isChain_cons_cons.mp chain
    obtain rfl : f = f' := Option.some.inj (found.symm.trans found')
    rcases List.mem_cons.mp mem with rfl | behind
    · exact ⟨f, found, .refl⟩
    · obtain ⟨target, here, onwards⟩ := ih chain there behind
      exact ⟨target, here, .head imports onwards⟩

/-- The first file of a cycle imports itself through the others. -/
theorem IsCycle.reachesCycle {cycle : List Path} (isCycle : store.IsCycle tree start cycle) :
    store.ReachesCycle tree start := by
  obtain ⟨first, f, head, found, reached⟩ := isCycle.reached
  obtain ⟨first', last, head', getLast, same⟩ := isCycle.closed
  obtain rfl : first = first' := Option.some.inj (head.symm.trans head')
  have entries := isCycle.entries
  have chain := isCycle.imports
  refine ⟨f, reached, ?_⟩
  match cycle, head, entries with
  | [_], _, entries => exact absurd entries (by simp)
  | first' :: next :: rest, head, _ =>
    obtain rfl : first' = first := Option.some.inj head
    obtain ⟨⟨f', g, found', there, imports⟩, chain⟩ := List.isChain_cons_cons.mp chain
    obtain rfl : f = f' := Option.some.inj (found.symm.trans found')
    have mem : last ∈ next :: rest := by
      rw [List.getLast?_cons_cons] at getLast
      exact List.mem_of_getLast? getLast
    obtain ⟨target, here, onwards⟩ := exists_reaches chain there mem
    -- The last path is of the same place as the first one, so it is of the same file.
    rw [← store.file?_congr same, found] at here
    cases here
    exact .head' imports onwards

/-! ## Imports that are known -/

/-- Whether one path is of a loaded file that imports the file of another path by a reference that is known. -/
def Linked (store : SourceStore) (p q : Path) : Prop :=
  ∃ f g, store.file? p = some f ∧ store.file? q = some g ∧
    ∃ reference ∈ Source.Import.references f.2, store.Knows reference (store.directoryOf f.1) g

theorem Linked.of_continues (linked : store.Linked p q) (continues : Continues store after) : after.Linked p q := by
  obtain ⟨f, g, found, there, reference, mem, knows⟩ := linked
  refine ⟨f, g, continues.retains found, continues.retains there, reference, mem, ?_⟩
  rw [directoryOf, continues.base]
  exact knows.of_continues continues

theorem Linked.leads (linked : store.Linked p q) (tree : FileTree) : store.Leads tree p q := by
  obtain ⟨f, g, found, there, reference, mem, knows⟩ := linked
  exact ⟨f, g, found, there, reference, mem, knows.answer_resolve tree⟩

end SourceStore

namespace Workspace

open ImportGraph (Sound)
open SourceStore (Continues)

variable {tree : FileTree} {visiting : List Path} {w middle after : Workspace} {p : Path} {file : Path × String}

/-! ## Recorded imports -/

/-- The recorded imports of a file are its references in textual order, and it is known where they lead. -/
def Recorded (store : SourceStore) (x : Expansion) : Prop :=
  ∃ f, store.file? x.file = some f ∧ x.edges.map (·.reference) = Source.Import.references f.2 ∧
    ∀ edge ∈ x.edges, ∃ content, store.Knows edge.reference (store.directoryOf f.1) (edge.target, content)

theorem Recorded.of_continues {store after : SourceStore} {x : Expansion} (recorded : Recorded store x)
    (continues : Continues store after) : Recorded after x := by
  obtain ⟨f, found, references, knows⟩ := recorded
  refine ⟨f, continues.retains found, references, fun edge mem => ?_⟩
  obtain ⟨content, known⟩ := knows edge mem
  rw [SourceStore.directoryOf, continues.base]
  exact ⟨content, known.of_continues continues⟩

/-- A workspace whose graph came about by expanding files of its store. -/
structure Ready (w : Workspace) : Prop where
  sound : Sound w.graph
  recorded : ∀ x ∈ w.graph.expansions, Recorded w.store x

theorem ready_new (base : Path) (constants : Dict String) : Ready (.new base constants) :=
  ⟨.empty, fun _ mem => by cases mem⟩

theorem Ready.of_continues {store : SourceStore} (ready : Ready w) (continues : Continues w.store store) :
    Ready { w with store } :=
  ⟨ready.sound, fun x mem => (ready.recorded x mem).of_continues continues⟩

/-- An import of a recorded file is a recorded import, and leads to a recorded file. -/
theorem Ready.imports (ready : Ready w) {f g : Path × String} (own : w.store.file? f.1 = some f)
    (expanded : (w.graph.expansion? f.1).isSome = true) (imports : w.store.Imports tree f g) :
    w.graph.Imports f.1 g.1 ∧ w.store.file? g.1 = some g ∧ (w.graph.expansion? g.1).isSome = true := by
  obtain ⟨x, there⟩ := Option.isSome_iff_exists.mp expanded
  have same : x.file.same f.1 = true := by simpa using List.find?_some there
  obtain ⟨f', found, references, knows⟩ := ready.recorded x (List.mem_of_find?_eq_some there)
  rw [w.store.file?_congr same, own] at found
  cases found
  obtain ⟨reference, mem, answered⟩ := imports
  rw [← references] at mem
  obtain ⟨edge, listed, rfl⟩ := List.mem_map.mp mem
  obtain ⟨content, known⟩ := knows edge listed
  rw [known.answer_resolve tree] at answered
  cases answered
  have step : w.graph.Imports f.1 edge.target := by
    refine ⟨edge, ?_, edge.target.same_refl⟩
    rw [ImportGraph.edges_of_expansion? there]
    exact listed
  have closed := ready.sound.isClosure (ImportGraph.closure?_eq_some_iff.mpr ⟨x, there, rfl⟩)
  exact ⟨step, known.own, closed.isSome ((closed.reached _).mpr (.single step))⟩

theorem Ready.reaches (ready : Ready w) {f : Path × String} (own : w.store.file? file.1 = some file)
    (expanded : (w.graph.expansion? file.1).isSome = true) (reached : w.store.Reaches tree file f) :
    w.store.file? f.1 = some f ∧ (w.graph.expansion? f.1).isSome = true := by
  induction reached with
  | refl => exact ⟨own, expanded⟩
  | tail _ imports ih => exact (ready.imports ih.1 ih.2 imports).2

/-- From a recorded file, no cycle is reached. -/
theorem Ready.acyclic (ready : Ready w) (own : w.store.file? file.1 = some file)
    (expanded : (w.graph.expansion? file.1).isSome = true) : ¬w.store.ReachesCycle tree file := by
  rintro ⟨f, reached, cycle⟩
  obtain ⟨own', expanded'⟩ := ready.reaches own expanded reached
  have onwards {g : Path × String} (reaches : Relation.TransGen (w.store.Imports tree) f g) :
      Relation.TransGen w.graph.Imports f.1 g.1 := by
    induction reaches with
    | single imports => exact .single (ready.imports own' expanded' imports).1
    | tail before imports ih =>
      obtain ⟨there, recorded⟩ := ready.reaches own' expanded' before.to_reflTransGen
      exact ih.tail (ready.imports there recorded imports).1
  obtain ⟨x, there⟩ := Option.isSome_iff_exists.mp expanded'
  have closed := ready.sound.isClosure (ImportGraph.closure?_eq_some_iff.mpr ⟨x, there, rfl⟩)
  exact closed.proper ((closed.reached _).mpr (onwards cycle))

/-! ## Where a call stops -/

/-- Why a call fails that has opened some files: they and others that were opened behind them import each other in
turn, and the last one is among those that are open, or has an import that is not resolved. -/
inductive Stops (tree : FileTree) (store : SourceStore) (opened : List Path) : Error → Prop
  | cycle {stack : List Path} {q : Path} :
      opened <+: stack ++ [q] → (stack ++ [q]).IsChain store.Linked →
        (stack.Pairwise fun p q => p.same q = false) → Listed stack q →
          Stops tree store opened (.cyclicImport (stack.dropWhile (!·.same q) ++ [q]))
  | unresolved {stack : List Path} {q : Path} {f : Path × String} {reference : String} {e e' : Error} :
      opened <+: stack ++ [q] → (stack ++ [q]).IsChain store.Linked → store.file? q = some f →
        reference ∈ Source.Import.references f.2 →
          (store.resolve tree reference (store.directoryOf f.1)).1 = .error e' →
            (∀ cycle, e ≠ .cyclicImport cycle) → Stops tree store opened e

theorem Stops.of_fewer {store : SourceStore} {opened fewer : List Path} {e : Error} (stops : Stops tree store opened e)
    (part : fewer <+: opened) : Stops tree store fewer e := by
  cases stops with
  | cycle inside chain distinct listed => exact .cycle (part.trans inside) chain distinct listed
  | unresolved inside chain found mem fails other => exact .unresolved (part.trans inside) chain found mem fails other

theorem exists_dropWhile_same {stack : List Path} (listed : Listed stack p) :
    ∃ first rest, stack.dropWhile (!·.same p) = first :: rest ∧ first.same p = true := by
  cases left : stack.dropWhile (!·.same p) with
  | nil =>
    obtain ⟨q, mem, same⟩ := listed
    have other := List.dropWhile_eq_nil_iff.mp left q mem
    rw [same] at other
    cases other
  | cons first rest =>
    have stops := List.head_dropWhile_not (l := stack) (fun q : Path => !q.same p) (by simp [left])
    refine ⟨first, rest, rfl, ?_⟩
    simpa [left] using stops

/-- The answer to a cycle is one. -/
theorem Stops.isCycle {store : SourceStore} {cycle : List Path} (stops : Stops tree store [p] (.cyclicImport cycle))
    (found : store.file? p = some file) : store.IsCycle tree file cycle := by
  cases stops with
  | unresolved _ _ _ _ _ other => exact absurd rfl (other cycle)
  | @cycle stack q inside chain distinct listed =>
    obtain ⟨first, rest, left, same⟩ := exists_dropWhile_same listed
    have chain' : (stack ++ [q]).IsChain (store.Leads tree) := chain.imp fun _ _ linked => linked.leads tree
    have behind : first :: rest ++ [q] <:+ stack ++ [q] := by
      exact ⟨stack.takeWhile (!·.same q), by rw [← left, ← List.append_assoc, List.takeWhile_append_dropWhile]⟩
    obtain ⟨others, whole⟩ := inside
    have reached : ∃ f, store.file? first = some f ∧ store.Reaches tree file f := by
      have mem : first ∈ stack ++ [q] := behind.subset (by simp)
      rw [← whole] at chain' mem
      exact SourceStore.exists_reaches chain' found mem
    obtain ⟨f, there, reached⟩ := reached
    rw [left]
    refine ⟨by simp, ⟨first, q, rfl, List.getLast?_concat, same⟩, ?_, chain'.suffix behind,
      ⟨first, f, rfl, there, reached⟩⟩
    rw [List.dropLast_concat, ← left]
    exact distinct.sublist (List.dropWhile_sublist _)

/-- A call that fails otherwise has reached a file with an import that is not resolved. -/
theorem Stops.exists_unresolved {store : SourceStore} {e : Error} (stops : Stops tree store [p] e)
    (other : ∀ cycle, e ≠ .cyclicImport cycle) (found : store.file? p = some file) :
    ∃ f, store.Reaches tree file f ∧ ¬store.Resolves tree f := by
  cases stops with
  | cycle _ _ _ _ => exact absurd rfl (other _)
  | @unresolved stack q f reference _ e' inside chain there mem fails _ =>
    have chain' : (stack ++ [q]).IsChain (store.Leads tree) := chain.imp fun _ _ linked => linked.leads tree
    obtain ⟨others, whole⟩ := inside
    have last : q ∈ stack ++ [q] := by simp
    rw [← whole] at chain' last
    obtain ⟨f', there', reached⟩ := SourceStore.exists_reaches chain' found last
    obtain rfl : f = f' := Option.some.inj (there.symm.trans there')
    refine ⟨f, reached, fun resolves => ?_⟩
    obtain ⟨g, answered⟩ := resolves reference mem
    rw [fails] at answered
    cases answered

/-! ## What a call leaves -/

/-- What expanding leaves, if it ends by the rules: a workspace that is ready, on a store that goes on from the one
before, and a reason if it fails. -/
structure Leaves (tree : FileTree) (opened : List Path) {α : Type} (w : Workspace) (outcome : Result α × Workspace) :
    Prop where
  ready : Ready outcome.2
  continues : Continues w.store outcome.2.store
  stops : ∀ e, outcome.1 = .error e → Stops tree outcome.2.store opened e

/-- A file is about to be expanded while others are: each imports the next one. -/
structure Open (store : SourceStore) (visiting : List Path) (p : Path) : Prop where
  chain : (visiting ++ [p]).IsChain store.Linked
  distinct : visiting.Pairwise fun p q => p.same q = false
  loaded : (store.file? p).isSome = true

theorem Open.of_continues {store after : SourceStore} (isOpen : Open store visiting p)
    (continues : Continues store after) : Open after visiting p := by
  refine ⟨isOpen.chain.imp fun _ _ linked => linked.of_continues continues, isOpen.distinct, ?_⟩
  obtain ⟨file, found⟩ := Option.isSome_iff_exists.mp isOpen.loaded
  rw [continues.retains found]
  rfl

/-- The file goes on with one that it imports. -/
theorem Open.concat {store : SourceStore} {q : Path} (isOpen : Open store visiting p) (new : ¬Listed visiting p)
    (linked : store.Linked p q) : Open store (visiting ++ [p]) q := by
  refine ⟨?_, ?_, ?_⟩
  · rw [List.append_assoc]
    exact List.isChain_split.mpr ⟨isOpen.chain, List.isChain_cons_cons.mpr ⟨linked, .singleton q⟩⟩
  · exact pairwise_concat isOpen.distinct new
  · obtain ⟨_, _, _, there, _⟩ := linked
    rw [there]
    rfl

/-- Following an import leaves a store that goes on from the one before. -/
theorem importUnit_eq {importer directory : Path} {reference : String} {result : Result SourceUnit}
    (imported : w.importUnit tree importer directory reference = (result, after)) :
    after = { w with store := (w.store.resolve tree reference directory).2 } := by
  have left := w.importUnit_snd tree importer directory reference
  rwa [imported] at left

/-- An import fails because its reference is not found or not read. -/
theorem error_of_importUnit {importer directory : Path} {reference : String} {e : Error}
    (imported : w.importUnit tree importer directory reference = (.error e, after)) :
    (∃ e', (w.store.resolve tree reference directory).1 = .error e') ∧ ∀ cycle, e ≠ .cyclicImport cycle := by
  unfold importUnit at imported
  split at imported
  · next failed =>
    cases imported
    exact ⟨⟨_, congrArg Prod.fst failed⟩, fun cycle same => by cases same⟩
  · next result _ _ failed =>
    cases imported
    refine ⟨⟨e, congrArg Prod.fst failed⟩, ?_⟩
    rintro cycle rfl
    exact SourceStore.resolve_ne_cyclicImport cycle (congrArg Prod.fst failed)

theorem directoryOf_congr {store : SourceStore} {q : Path} (same : p.same q = true) :
    store.directoryOf p = store.directoryOf q := by
  rw [SourceStore.directoryOf, SourceStore.directoryOf, Path.parent?_congr same]

theorem directoryOf_of_continues {store after : SourceStore} (continues : Continues store after) (p : Path) :
    after.directoryOf p = store.directoryOf p := by rw [SourceStore.directoryOf, continues.base, SourceStore.directoryOf]

/-- An import that is resolved is known, and the file that it leads to is the next one to be expanded. -/
theorem Open.import (isOpen : Open w.store visiting p) (new : ¬Listed visiting p) (ready : Ready w)
    (found : w.store.file? p = some file) {reference : String} (mem : reference ∈ Source.Import.references file.2)
    {unit : SourceUnit}
    (imported : w.importUnit tree p (w.store.directoryOf file.1) reference = (.ok unit, middle)) :
    Ready middle ∧ Continues w.store middle.store ∧ Open middle.store (visiting ++ [p]) unit.path ∧
      middle.store.Knows reference (w.store.directoryOf file.1) (unit.path, unit.content) := by
  have resolved : (w.store.resolve tree reference (w.store.directoryOf file.1)).1 = .ok unit :=
    resolve_of_importUnit (by rw [imported])
  have continues := w.store.continues_resolve tree reference (w.store.directoryOf file.1)
  have knows := SourceStore.knows_of_resolve resolved
  obtain rfl := importUnit_eq imported
  have linked : (w.store.resolve tree reference (w.store.directoryOf file.1)).2.Linked p unit.path := by
    refine ⟨file, _, continues.retains found, knows.own, reference, mem, ?_⟩
    rwa [directoryOf_of_continues continues]
  exact ⟨ready.of_continues continues, continues, (isOpen.of_continues continues).concat new linked, knows⟩

/-! ### Following imports -/

/-- What following imports leaves: also, if all are followed, new edges with the references of these, and it is known
that they lead to the targets. -/
structure LeavesImports (tree : FileTree) (opened : List Path) (directory : Path) (edges : List ImportEdge)
    (references : List String) (w : Workspace) (outcome : Result (List Path × List ImportEdge) × Workspace) : Prop where
  leaves : Leaves tree opened w outcome
  recorded : ∀ closure edges', outcome.1 = .ok (closure, edges') →
    ∃ new, edges' = edges ++ new ∧ new.map (·.reference) = references ∧
      ∀ edge ∈ new, ∃ content, outcome.2.store.Knows edge.reference directory (edge.target, content)

section

variable {opened : List Path} {closure nested : List Path} {edges : List ImportEdge} {reference : String}
  {rest : List String} {unit : SourceUnit} {e : Error}

theorem leavesImports_nil (ready : Ready w) (directory : Path) :
    LeavesImports tree opened directory edges [] w (.ok (closure, edges), w) := by
  refine ⟨⟨ready, .refl _, fun e failed => by cases failed⟩, fun closure' edges' done => ?_⟩
  cases done
  exact ⟨[], by simp, rfl, fun edge mem => by cases mem⟩

/-- An import that is not resolved is not resolved in the store that is left, either. -/
theorem Open.leavesImports_unresolved (isOpen : Open w.store visiting p) (ready : Ready w)
    (found : w.store.file? p = some file) (mem : reference ∈ Source.Import.references file.2)
    (imported : w.importUnit tree p (w.store.directoryOf file.1) reference = (.error e, after)) :
    LeavesImports tree (visiting ++ [p]) (w.store.directoryOf file.1) edges (reference :: rest) w (.error e, after) := by
  obtain ⟨⟨e', fails⟩, other⟩ := error_of_importUnit imported
  obtain rfl := importUnit_eq imported
  have continues := w.store.continues_resolve tree reference (w.store.directoryOf file.1)
  refine ⟨⟨ready.of_continues continues, continues, fun e'' failed => ?_⟩, fun _ _ done => by cases done⟩
  cases failed
  have again : ((w.store.resolve tree reference (w.store.directoryOf file.1)).2.resolve tree reference
      ((w.store.resolve tree reference (w.store.directoryOf file.1)).2.directoryOf file.1)).1 = .error e' := by
    rw [directoryOf_of_continues continues]
    exact SourceStore.resolve_again fails
  exact .unresolved (List.prefix_refl _) (isOpen.of_continues continues).chain (continues.retains found) mem again other

/-- An import that cannot be expanded stops where its own expansion does. -/
theorem Open.leavesImports_fails (isOpen : Open w.store visiting p) (new : ¬Listed visiting p) (ready : Ready w)
    (found : w.store.file? p = some file) (mem : reference ∈ Source.Import.references file.2)
    (imported : w.importUnit tree p (w.store.directoryOf file.1) reference = (.ok unit, middle))
    (visited : Ready middle → Open middle.store (visiting ++ [p]) unit.path →
      Leaves tree (visiting ++ [p] ++ [unit.path]) middle ((.error e : Result (List Path)), after)) :
    LeavesImports tree (visiting ++ [p]) (w.store.directoryOf file.1) edges (reference :: rest) w (.error e, after) := by
  obtain ⟨ready', continues, isOpen', _⟩ := isOpen.import new ready found mem imported
  have left := visited ready' isOpen'
  refine ⟨⟨left.ready, continues.trans left.continues, fun e' failed => ?_⟩, fun _ _ done => by cases done⟩
  cases failed
  exact (left.stops e rfl).of_fewer (List.prefix_append ..)

/-- Behind an import that is expanded, the others are followed as from the beginning. -/
theorem Open.leavesImports_step (isOpen : Open w.store visiting p) (new : ¬Listed visiting p) (ready : Ready w)
    (found : w.store.file? p = some file) (mem : reference ∈ Source.Import.references file.2)
    (imported : w.importUnit tree p (w.store.directoryOf file.1) reference = (.ok unit, middle))
    (visited : Ready middle → Open middle.store (visiting ++ [p]) unit.path →
      Leaves tree (visiting ++ [p] ++ [unit.path]) middle (.ok nested, after))
    {outcome : Result (List Path × List ImportEdge) × Workspace}
    (followed : Ready after → Continues w.store after.store →
      LeavesImports tree (visiting ++ [p]) (w.store.directoryOf file.1) (edges ++ [⟨reference, unit.path⟩]) rest after
        outcome) :
    LeavesImports tree (visiting ++ [p]) (w.store.directoryOf file.1) edges (reference :: rest) w outcome := by
  obtain ⟨ready', continues, isOpen', knows⟩ := isOpen.import new ready found mem imported
  have left := visited ready' isOpen'
  have onwards : Continues w.store after.store := continues.trans left.continues
  have later := followed left.ready onwards
  refine ⟨⟨later.leaves.ready, onwards.trans later.leaves.continues, later.leaves.stops⟩,
    fun closure' edges' done => ?_⟩
  obtain ⟨added, rfl, rfl, known⟩ := later.recorded closure' edges' done
  refine ⟨⟨reference, unit.path⟩ :: added, by simp, rfl, fun edge there => ?_⟩
  rcases List.mem_cons.mp there with rfl | behind
  · exact ⟨unit.content, knows.of_continues (left.continues.trans later.leaves.continues)⟩
  · exact known edge behind

/-- A file whose imports are all followed is recorded. -/
theorem LeavesImports.done (left : LeavesImports tree opened (w.store.directoryOf file.1) []
    (Source.Import.references file.2) w (.ok (closure, edges), after)) (found : w.store.file? p = some file)
    (sound : Sound (after.graph.add ⟨p, closure, edges⟩)) :
    Leaves tree opened w (.ok closure, { after with graph := after.graph.add ⟨p, closure, edges⟩ }) := by
  obtain ⟨added, rfl, references, knows⟩ := left.recorded closure edges rfl
  refine ⟨⟨sound, fun x mem => ?_⟩, left.leaves.continues, fun e failed => by cases failed⟩
  rcases List.mem_append.mp mem with before | single
  · exact left.leaves.ready.recorded x before
  · rw [List.mem_singleton.mp single]
    refine ⟨file, left.leaves.continues.retains found, references, fun edge mem => ?_⟩
    rw [directoryOf_of_continues left.leaves.continues]
    exact knows edge mem

end

/-- What is expanded by the rules leaves a workspace that is ready, and fails with a reason. -/
theorem Visits.leaves {outcome : Result (List Path) × Workspace} (visits : Visits tree visiting w p outcome)
    (ready : Ready w) (isOpen : Open w.store visiting p) : Leaves tree (visiting ++ [p]) w outcome := by
  refine @Visits.rec tree
    (fun visiting w p outcome _ =>
      Ready w → Open w.store visiting p → Leaves tree (visiting ++ [p]) w outcome)
    (fun visiting importer directory _ edges w references outcome _ =>
      ∀ before f, visiting = before ++ [importer] → Ready w → Open w.store before importer → ¬Listed before importer →
        w.store.file? importer = some f → directory = w.store.directoryOf f.1 →
        (∀ reference ∈ references, reference ∈ Source.Import.references f.2) →
        LeavesImports tree visiting directory edges references w outcome)
    ?known ?cycle ?missing ?fails ?done ?nil ?unresolved ?importFails ?step visiting w p outcome visits ready isOpen
  case known =>
    intro visiting w p x found ready isOpen
    exact ⟨ready, .refl _, fun e failed => by cases failed⟩
  case cycle =>
    intro visiting w p new listed ready isOpen
    refine ⟨ready, .refl _, fun e failed => ?_⟩
    cases failed
    exact .cycle (List.prefix_refl _) isOpen.chain isOpen.distinct listed
  case missing =>
    intro visiting w p e new notListed absent ready isOpen
    obtain ⟨file, found⟩ := Option.isSome_iff_exists.mp isOpen.loaded
    have answered := SourceStore.answer_unit found
    rw [absent] at answered
    cases answered
  case fails =>
    intro visiting w after p unit e new notListed there _ followed ready isOpen
    have found := SourceStore.file?_of_unit there
    have directory : w.store.directoryOf p = w.store.directoryOf unit.path :=
      directoryOf_congr (Path.same_symm (SourceStore.same_of_file? found))
    have left := (followed visiting _ rfl ready isOpen notListed found directory fun _ => id).leaves
    refine ⟨left.ready, left.continues, fun e' failed => ?_⟩
    cases failed
    exact left.stops e rfl
  case done =>
    intro visiting w after p unit closure edges new notListed there follows followed ready isOpen
    have found := SourceStore.file?_of_unit there
    have directory : w.store.directoryOf p = w.store.directoryOf unit.path :=
      directoryOf_congr (Path.same_symm (SourceStore.same_of_file? found))
    have left := followed visiting _ rfl ready isOpen notListed found directory fun _ => id
    have sound := ((Visits.done new notListed there follows).expands ready.sound).1.sound
    rw [← SourceStore.directoryOf, directory] at left
    exact left.done found sound
  case nil =>
    intro visiting importer directory closure edges w before f _ ready _ _ _ _ _
    exact leavesImports_nil ready directory
  case unresolved =>
    intro visiting importer directory closure edges w after reference rest e imported before f same ready isOpen
      notListed found here mem
    subst same here
    exact isOpen.leavesImports_unresolved ready found (mem reference (by simp)) imported
  case importFails =>
    intro visiting importer directory closure edges w middle after reference rest unit e imported _ visited before f
      same ready isOpen notListed found here mem
    subst same here
    exact isOpen.leavesImports_fails notListed ready found (mem reference (by simp)) imported visited
  case step =>
    intro visiting importer directory closure nested edges w middle after reference rest unit outcome imported _ _
      visited followed before f same ready isOpen notListed found here mem
    subst same here
    refine isOpen.leavesImports_step notListed ready found (mem reference (by simp)) imported visited
      fun ready' onwards => ?_
    exact followed before f rfl ready' (isOpen.of_continues onwards) notListed (onwards.retains found)
      (directoryOf_of_continues onwards f.1).symm fun other there => mem other (List.mem_cons_of_mem _ there)

/-! ## Calls for closures -/

/-- A call for the closure of a loaded file leaves a workspace that is ready, and fails with a reason. -/
theorem Ready.closure_leaves (ready : Ready w) (rooted : tree.Rooted) (loaded : w.store.file? p = some file) :
    Leaves tree [p] w (w.closure tree p) :=
  (closure_visits rooted ready.sound p).leaves ready ⟨.singleton p, .nil, by rw [loaded]; rfl⟩

/-- A file that is not loaded is either known to the graph or not expanded. -/
theorem closure_of_absent (absent : w.store.file? p = none) : (w.closure tree p).2 = w := by
  unfold Workspace.closure
  cases found : w.graph.expansion? p with
  | some x => rw [expand_known found]
  | none =>
    have missing : w.store.unit p = .error (.sourceNotFound p.text none [p]) := by
      rw [SourceStore.unit, Option.map_eq_none_iff.mp absent]
    rw [expand_missing found (fun listed => by cases listed.choose_spec.1) missing]

/-- A workspace after any calls on its store and any calls for closures, with any trees, be they successful or not. -/
inductive Reached : Workspace → Prop
  | new (base : Path) (constants : Dict String) : Reached (.new base constants)
  | call {w : Workspace} (tree : FileTree) (call : SourceStore.Call) :
      Reached w → Reached { w with store := w.store.after tree call }
  | closure {w : Workspace} {tree : FileTree} (rooted : tree.Rooted) (p : Path) :
      Reached w → Reached (w.closure tree p).2

theorem Reached.ready (reached : Reached w) : Ready w := by
  induction reached with
  | new base constants => exact ready_new base constants
  | call tree call _ ih => exact ih.of_continues (SourceStore.continues_after tree _ call)
  | @closure w tree rooted p _ ih =>
    cases loaded : w.store.file? p with
    | none =>
      rw [closure_of_absent loaded]
      exact ih
    | some file => exact (ih.closure_leaves rooted loaded).ready

/-- A call for the closure of a loaded file ends with what the rules derive. If all references of the files that are
reached lead to files, then it answers a closure exactly if no cycle of imports is reached, and a cycle otherwise; and
what it answers as a cycle is one. Here references lead where the store that the call leaves answers that they do. -/
theorem closure_exact (rooted : tree.Rooted) (reached : Reached w) (loaded : w.store.file? p = some file)
    {answer : Result (List Path)} (ran : w.closure tree p = (answer, after)) :
    (∀ outcome, Visits tree [] w p outcome ↔ outcome = (answer, after)) ∧
      ((∀ f, after.store.Reaches tree file f → after.store.Resolves tree f) →
        ((∃ closure, answer = .ok closure) ↔ ¬after.store.ReachesCycle tree file) ∧
          (after.store.ReachesCycle tree file → ∃ cycle, answer = .error (.cyclicImport cycle))) ∧
      ∀ cycle, answer = .error (.cyclicImport cycle) → after.store.IsCycle tree file cycle := by
  have ready := reached.ready
  have visits := closure_visits rooted ready.sound p
  have left := ready.closure_leaves rooted loaded
  have recorded := (closure_advances tree w p ready.sound).2
  rw [ran] at visits left recorded
  have there := left.continues.retains loaded
  have isCycle : ∀ cycle, answer = .error (.cyclicImport cycle) → after.store.IsCycle tree file cycle := by
    intro cycle failed
    exact (left.stops _ failed).isCycle there
  have acyclic : ∀ closure, answer = .ok closure → ¬after.store.ReachesCycle tree file := by
    intro closure answered
    have expanded := ImportGraph.isSome_of_closure? (recorded closure answered)
    rw [← after.graph.expansion?_congr (SourceStore.same_of_file? there)] at expanded
    exact left.ready.acyclic (SourceStore.file?_own there) expanded
  refine ⟨fun outcome => ⟨fun derived => derived.unique visits, ?_⟩, fun resolves => ?_, isCycle⟩
  · rintro rfl
    exact visits
  -- With all references resolved, only a cycle makes the call fail.
  have ends : (∃ closure, answer = .ok closure) ∨ ∃ cycle, answer = .error (.cyclicImport cycle) := by
    cases result : answer with
    | ok closure => exact .inl ⟨closure, rfl⟩
    | error e =>
      by_cases cyclic : ∃ cycle, e = .cyclicImport cycle
      · obtain ⟨cycle, rfl⟩ := cyclic
        exact .inr ⟨cycle, rfl⟩
      · have other : ∀ cycle, e ≠ .cyclicImport cycle := fun cycle same => cyclic ⟨cycle, same⟩
        obtain ⟨f, reaches, unresolved⟩ := (left.stops e result).exists_unresolved other there
        exact absurd (resolves f reaches) unresolved
  refine ⟨⟨fun ⟨closure, answered⟩ => acyclic closure answered, fun acyclicHere => ?_⟩, fun cycles => ?_⟩
  · refine ends.resolve_right ?_
    rintro ⟨cycle, failed⟩
    exact acyclicHere (isCycle cycle failed).reachesCycle
  · refine ends.resolve_left ?_
    rintro ⟨closure, answered⟩
    exact acyclic closure answered cycles

namespace Loop

/-- A file outside of a cycle, and two files that import each other. -/
def project : FileTree :=
  ⟨[(["p"], .directory), (["p", "contracts"], .directory),
    (["p", "contracts", "X.sol"], .file (.text "import \"./A.sol\";\n")),
    (["p", "contracts", "A.sol"], .file (.text "import \"./B.sol\";\n")),
    (["p", "contracts", "B.sol"], .file (.text "import \"./A.sol\";\n"))], [], by decide⟩

theorem rooted : project.Rooted where
  proper := fun _ mem => nomatch mem
  isOpen := project.isOpen_root

def path (name : String) : Path := .ofText ("/p/contracts/" ++ name)

/-- The workspace with the file outside of the cycle. -/
def workspace : Workspace :=
  { Workspace.new (.ofText "/p") Dict.empty with
    store := (Workspace.new (.ofText "/p") Dict.empty).store.after project (.loadPrimary (path "X.sol")) }

theorem reached : Reached workspace := .call project _ (.new _ _)

end Loop

theorem closure_exact_loop :
    (Loop.workspace.closure Loop.project (Loop.path "X.sol")).1 =
        .error (.cyclicImport [Loop.path "A.sol", Loop.path "B.sol", Loop.path "A.sol"]) ∧
      (Loop.workspace.closure Loop.project (Loop.path "X.sol")).2.store.IsCycle Loop.project
        (Loop.path "X.sol", "import \"./A.sol\";\n") [Loop.path "A.sol", Loop.path "B.sol", Loop.path "A.sol"] := by
  have answered : (Loop.workspace.closure Loop.project (Loop.path "X.sol")).1 =
      .error (.cyclicImport [Loop.path "A.sol", Loop.path "B.sol", Loop.path "A.sol"]) := by decide +kernel
  have loaded : Loop.workspace.store.file? (Loop.path "X.sol") =
      some (Loop.path "X.sol", "import \"./A.sol\";\n") := by decide +kernel
  exact ⟨answered, (closure_exact Loop.rooted Loop.reached loaded (Prod.fst_eq_iff.mp answered)).2.2 _ rfl⟩

end Workspace

end SolidityBuild
