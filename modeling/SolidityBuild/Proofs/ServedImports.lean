import SolidityBuild.Proofs.RequestNames
import Mathlib.Data.List.MinMax

/-!
# Imports that a request serves

The compiler asks for an import under a name that it works out from the name of the importing source, after
replacing the longest beginning that is remapped. It gets the file that the import led to if the registry has
that name for a file with the same content, and otherwise only where a remapping happens to turn the name into
such a one (`serves_iff`). The registry has the name if the importing source had its own name when it was
taken from the queue of a walk; a name that it is given later is never joined with its references
(`exists_get?_of_expands`).
-/

namespace SolidityBuild.Batch

open NameRegistry (Extends Visits WellFormed importName)

/-! ## Remapped names -/

/-- A name after its longest remapped beginning was replaced. -/
def remap (remappings : List (String × String)) (name : String) : String :=
  match (remappings.filter fun pair => pair.1.toList.isPrefixOf name.toList).argmax (·.1.toList.length) with
  | some pair => pair.2 ++ String.ofList (name.toList.drop pair.1.toList.length)
  | none => name

theorem remap_cases (remappings : List (String × String)) (name : String) :
    (remap remappings name = name ∧ ∀ pair ∈ remappings, ¬pair.1.toList <+: name.toList) ∨
      ∃ pair ∈ remappings, pair.1.toList <+: name.toList ∧
        remap remappings name = pair.2 ++ String.ofList (name.toList.drop pair.1.toList.length) := by
  unfold remap
  cases longest : (remappings.filter fun pair => pair.1.toList.isPrefixOf name.toList).argmax (·.1.toList.length) with
  | none =>
    refine .inl ⟨rfl, fun pair listed begins => ?_⟩
    have nothing := List.filter_eq_nil_iff.mp (List.argmax_eq_none.mp longest) pair listed
    exact nothing (List.isPrefixOf_iff_prefix.mpr begins)
  | some pair =>
    obtain ⟨listed, begins⟩ := List.mem_filter.mp (List.argmax_mem longest)
    exact .inr ⟨pair, listed, List.isPrefixOf_iff_prefix.mp begins, rfl⟩

section

variable {graph : ImportGraph} {batch : Batch} {store : SourceStore} {settings : CompilerSettings}
  {request : CompilerRequest} {names : SourceNames}

theorem content_of_entryOf {file : Path} {entry : SourceEntry} (found : entryOf store file = .ok entry) :
    (store.get? file).map (·.content) = some entry.content := by
  obtain ⟨stored, loaded, same⟩ := bind_eq_ok_iff.mp found
  cases same
  rw [SourceStore.unit_eq_ok_iff.mp loaded]
  rfl

/-- A name of the registry leads to the content of its file, be it sent itself or remapped. -/
theorem get?_remap (wellFormed : WellFormed batch.registry)
    (requested : batch.request store settings = .ok (request, names)) {name : String} {file : Path}
    (named : batch.registry.names.get? name = some file) :
    ∃ entry, request.sources.get? (remap batch.remappings name) = some entry ∧
      (store.get? file).map (·.content) = some entry.content := by
  obtain ⟨owner, owned⟩ := wellFormed.owned named
  by_cases sent : name = owner ∨ batch.registry.beginsAnother name = true
  · have unchanged : remap batch.remappings name = name := by
      rcases remap_cases batch.remappings name with ⟨same, _⟩ | ⟨pair, remapped, begins, _⟩
      · exact same
      · have isName := eq_of_begins remapped named begins
        obtain ⟨other, named', owned', differs, alone⟩ := mem_remappings.mp remapped
        rw [← isName] at named' differs alone
        rw [named] at named'
        cases named'
        rw [owned] at owned'
        cases owned'
        rcases sent with same | another
        · exact absurd same differs
        · rw [another] at alone
          cases alone
    obtain ⟨entry, found⟩ := exists_entryOf requested named owned sent
    rw [unchanged]
    exact ⟨entry, (get?_sources requested).mpr ⟨file, owner, named, owned, sent, found⟩, content_of_entryOf found⟩
  · have differs : name ≠ owner := fun same => sent (.inl same)
    have alone : batch.registry.beginsAnother name = false := by
      cases another : batch.registry.beginsAnother name with
      | true => exact absurd (.inr another) sent
      | false => rfl
    have remapped := mem_remappings.mpr ⟨file, named, owned, differs, alone⟩
    have replaced : remap batch.remappings name = owner := by
      rcases remap_cases batch.remappings name with ⟨_, beginsNone⟩ | ⟨pair, listed, begins, same⟩
      · exact absurd (List.prefix_refl _) (beginsNone _ remapped)
      · have isName := eq_of_begins listed named begins
        obtain ⟨other, named', owned', _⟩ := mem_remappings.mp listed
        rw [← isName, named] at named'
        cases named'
        rw [owned] at owned'
        rw [same, ← isName, List.drop_length, ← Option.some.inj owned']
        simp
    obtain ⟨present, named', isFile, owned'⟩ := wellFormed.get?_owner owned
    obtain ⟨source, found⟩ := exists_entryOf requested named' owned' (.inl rfl)
    refine ⟨source, ?_, ?_⟩
    · rw [replaced]
      exact (get?_sources requested).mpr ⟨present, owner, named', owned', .inl rfl, found⟩
    · rw [← store.get?_congr isFile]
      exact content_of_entryOf found

/-- All remappings whose beginning a name has replace it alike. -/
theorem remap_of_begins {pair : String × String} (remapped : pair ∈ batch.remappings) (rest : String) :
    remap batch.remappings (pair.1 ++ rest) = pair.2 ++ rest := by
  have begins : pair.1.toList <+: (pair.1 ++ rest).toList := by simp [String.toList_append]
  rcases remap_cases batch.remappings (pair.1 ++ rest) with ⟨_, beginsNone⟩ | ⟨other, listed, begins', same⟩
  · exact absurd begins (beginsNone pair remapped)
  · obtain ⟨file, named, owned, _⟩ := mem_remappings.mp remapped
    obtain ⟨file', named', owned', _⟩ := mem_remappings.mp listed
    have equal : pair.1 = other.1 := by
      rcases List.prefix_or_prefix_of_prefix begins begins' with short | long
      · exact (eq_of_begins remapped named' short).symm
      · exact eq_of_begins listed named long
    rw [equal, named'] at named
    cases named
    rw [owned'] at owned
    rw [same, ← equal, Option.some.inj owned, String.toList_append, List.drop_left, String.ofList_toList]

/-- The compiler gets the content of a file when it asks for a name. -/
def Serves (batch : Batch) (store : SourceStore) (request : CompilerRequest) (name : String) (target : Path) : Prop :=
  ∃ stored, store.get? target = some stored ∧
    (request.sources.get? (remap batch.remappings name)).map (·.content) = some stored.content

/-- A name stands for a file that has the content of `target`. -/
def StandsFor (batch : Batch) (store : SourceStore) (name : String) (target : Path) : Prop :=
  ∃ present, batch.registry.names.get? name = some present ∧ ∃ stored, store.get? target = some stored ∧
    (store.get? present).map (·.content) = some stored.content

/-- A name that stands for nothing begins with a name that is remapped, and becomes one that is sent with the
content of `target`. -/
def BecomesNameOf (batch : Batch) (store : SourceStore) (request : CompilerRequest) (name : String)
    (target : Path) : Prop :=
  batch.registry.names.get? name = none ∧ ∃ pair ∈ batch.remappings, ∃ rest, name = pair.1 ++ rest ∧
    ∃ stored, store.get? target = some stored ∧
      (request.sources.get? (pair.2 ++ rest)).map (·.content) = some stored.content

/-- What is asked for is served just if the registry has the name for that content, or a remapping turns the
name into one that is sent with it. -/
theorem serves_iff (wellFormed : WellFormed batch.registry)
    (requested : batch.request store settings = .ok (request, names)) (name : String) (target : Path) :
    Serves batch store request name target ↔
      StandsFor batch store name target ∨ BecomesNameOf batch store request name target := by
  cases named : batch.registry.names.get? name with
  | some present =>
    obtain ⟨entry, sent, content⟩ := get?_remap wellFormed requested named
    constructor
    · rintro ⟨stored, found, same⟩
      rw [sent] at same
      exact .inl ⟨present, named, stored, found, content.trans same⟩
    · rintro (⟨other, named', stored, found, same⟩ | ⟨free, _⟩)
      · rw [named] at named'
        cases named'
        refine ⟨stored, found, ?_⟩
        rw [sent]
        exact content.symm.trans same
      · rw [named] at free
        cases free
  | none =>
    constructor
    · rintro ⟨stored, found, same⟩
      rcases remap_cases batch.remappings name with ⟨unchanged, _⟩ | ⟨pair, listed, begins, whole⟩
      · rw [unchanged] at same
        obtain ⟨entry, sent, _⟩ := Option.map_eq_some_iff.mp same
        obtain ⟨file, _, named', _⟩ := (get?_sources requested).mp sent
        rw [named] at named'
        cases named'
      · obtain ⟨rest, split⟩ := begins
        have isName : name = pair.1 ++ String.ofList rest := by
          rw [← String.toList_inj, String.toList_append, String.toList_ofList, split]
        rw [isName, remap_of_begins listed] at same
        exact .inr ⟨named, pair, listed, _, isName, stored, found, same⟩
    · rintro (⟨present, named', _⟩ | ⟨_, pair, listed, rest, rfl, stored, found, same⟩)
      · rw [named] at named'
        cases named'
      · refine ⟨stored, found, ?_⟩
        rw [remap_of_begins listed]
        exact same

end

/-! ## Names that the registry has -/

/-- The walk of some unit takes a file from its queue when the registry is `current`. -/
def Expands (graph : ImportGraph) (units : List CompilationUnit) (current : NameRegistry) (file : Path) : Prop :=
  ∃ before unit after, units = before ++ unit :: after ∧
    Visits graph ((ofUnits graph before).registry.register unit.primary.text unit.primary true) [unit.primary]
      [unit.primary] current file

theorem exists_get?_of_expands {graph : ImportGraph} {units : List CompilationUnit} {current : NameRegistry}
    {file : Path} (expands : Expands graph units current file) {edge : ImportEdge} (mem : edge ∈ graph.edges file)
    {importer : String}
    (asked : Source.Import.isRelative edge.reference = true → importer ∈ current.namesOf file) :
    ∃ present, (ofUnits graph units).registry.names.get? (importName importer edge.reference) = some present := by
  obtain ⟨before, unit, after, rfl, visits⟩ := expands
  obtain ⟨present, found⟩ := visits.get? mem asked
  have later := extends_ofUnits graph (before ++ [unit]) after
  rw [List.append_assoc, List.singleton_append, ofUnits_concat] at later
  exact ⟨present, later.get? found⟩

/-- Every file with a name is taken from the queue of some walk. -/
theorem expands_of_named {graph : ImportGraph} {units : List CompilationUnit} {name : String} {file : Path}
    (named : (ofUnits graph units).registry.names.get? name = some file) :
    ∃ current q, Expands graph units current q ∧ q.same file = true := by
  induction units using List.reverseRecOn with
  | nil => cases named
  | append_singleton units unit ih =>
    rw [ofUnits_concat] at named
    have single : ∀ p ∈ [unit.primary], (∃ q ∈ ([] : List Path), q.same p = true) ∨
        ∃ q ∈ [unit.primary], q.same p = true := fun p mem => .inr ⟨p, mem, Path.same_refl p⟩
    rcases NameRegistry.visits_of_named [] single named with old | ⟨q, listed, _⟩ | ⟨current, q, visits, same⟩
    · rcases NameRegistry.get?_register_cases old with earlier | rfl
      · obtain ⟨current, q, ⟨before, other, after, split, visits⟩, same⟩ := ih earlier
        exact ⟨current, q, ⟨before, other, after ++ [unit], by simp [split], visits⟩, same⟩
      · exact ⟨_, _, ⟨units, unit, [], rfl, .here ..⟩, Path.same_refl _⟩
    · cases listed
    · exact ⟨current, q, ⟨units, unit, [], rfl, visits⟩, same⟩

theorem edges_congr (graph : ImportGraph) {file other : Path} (same : file.same other = true) :
    graph.edges file = graph.edges other := by
  simp only [ImportGraph.edges, ImportGraph.expansion?, Path.same_right same]

/-- The import of a source that is sent is served just if its name stands for the content of the file that it
led to, or is turned into a name of that content. And its name stands for some file at least if it does not
depend on the name of the source, or the source had that name when a walk came to its imports. -/
theorem import_served_iff {graph : ImportGraph} {batch : Batch} {store : SourceStore} {settings : CompilerSettings}
    {request : CompilerRequest} {names : SourceNames} (built : Built graph batch)
    (requested : batch.request store settings = .ok (request, names)) {importer : String} {file : Path}
    (sent : names.fileOf? importer = some file) {edge : ImportEdge} (mem : edge ∈ graph.edges file) :
    (Serves batch store request (importName importer edge.reference) edge.target ↔
      StandsFor batch store (importName importer edge.reference) edge.target ∨
        BecomesNameOf batch store request (importName importer edge.reference) edge.target) ∧
      ((Source.Import.isRelative edge.reference = false ∨ ∃ current q, Expands graph batch.units current q ∧
          q.same file = true ∧ importer ∈ current.namesOf q) →
        ∃ present, batch.registry.names.get? (importName importer edge.reference) = some present) := by
  have whole := built.eq_ofUnits
  have wellFormed := wellFormed_ofUnits graph batch.units
  rw [← whole] at wellFormed
  refine ⟨serves_iff wellFormed requested _ _, ?_⟩
  rintro (absolute | ⟨current, q, expands, same, timely⟩)
  · obtain ⟨present, named, same⟩ := fileOf?_request wellFormed requested sent
    rw [whole] at named
    obtain ⟨current, q, expands, here⟩ := expands_of_named named
    rw [whole]
    refine exists_get?_of_expands expands ?_ fun relative => ?_
    · rw [edges_congr graph (Path.same_trans here same)]
      exact mem
    · rw [absolute] at relative
      cases relative
  · rw [whole]
    refine exists_get?_of_expands expands ?_ fun _ => timely
    rw [edges_congr graph same]
    exact mem

/-! ## A late name -/

namespace Late

def primary : Path := .ofText "/p/contracts/A.sol"

def auth : Path := .ofText "/p/lib/ds-auth/src/auth.sol"

def index : Path := .ofText "/p/lib/ds-auth/src/index.sol"

def events : Path := .ofText "/p/lib/ds-auth/src/events.sol"

def math : Path := .ofText "/p/lib/ds-math/src/math.sol"

def core : Path := .ofText "/p/lib/ds-math/src/core.sol"

/-- The last file to be taken from the queue imports the main file of a package, whose imports have been
registered by then. -/
def graph : ImportGraph :=
  ⟨[⟨events, [], []⟩, ⟨index, [events], [⟨"./events.sol", events⟩]⟩,
    ⟨auth, [events, index], [⟨"./index.sol", index⟩]⟩, ⟨core, [events, index], [⟨"ds-auth", index⟩]⟩,
    ⟨math, [events, index, core], [⟨"./core.sol", core⟩]⟩,
    ⟨primary, [events, index, auth, core, math], [⟨"ds-auth/auth.sol", auth⟩, ⟨"ds-math/math.sol", math⟩]⟩]⟩

def store : SourceStore where
  base := .ofText "/p"
  constants := Dict.empty
  units := [⟨primary, "import \"ds-auth/auth.sol\";\nimport \"ds-math/math.sol\";\n", .primary⟩,
    ⟨auth, "import \"./index.sol\";\n", .dependency⟩, ⟨index, "import \"./events.sol\";\n", .dependency⟩,
    ⟨events, "contract AuthEvents {}\n", .dependency⟩, ⟨math, "import \"./core.sol\";\n", .dependency⟩,
    ⟨core, "import \"ds-auth\";\n", .dependency⟩]
  aliases := Dict.empty
  vendored := none

def batch : Batch := Batch.empty.add graph ⟨primary, [events, index, auth, core, math]⟩

/-- The compiler asks for `events.sol` from the copy that is named `ds-auth`, and nothing is sent for it. -/
theorem answered : ∃ request names, batch.request store .default = .ok (request, names) ∧
    names.fileOf? "ds-auth" = some index ∧
    request.sources.get? (remap batch.remappings (importName "ds-auth" "./events.sol")) = none := by
  have evaluated : ((batch.request store .default).toOption.any fun answer =>
      answer.2.fileOf? "ds-auth" = some index &&
        (answer.1.sources.get? (remap batch.remappings (importName "ds-auth" "./events.sol"))).isNone) = true := by
    decide +kernel
  cases requested : batch.request store .default with
  | error e =>
    rw [requested] at evaluated
    cases evaluated
  | ok answer =>
    rw [requested] at evaluated
    simp only [Except.toOption, Option.any_some, Bool.and_eq_true, decide_eq_true_eq, Option.isNone_iff_eq_none]
      at evaluated
    exact ⟨answer.1, answer.2, rfl, evaluated⟩

end Late

theorem not_standsFor_late :
    ∃ request names, Late.batch.request Late.store .default = .ok (request, names) ∧
      names.fileOf? "ds-auth" = some Late.index ∧ ⟨"./events.sol", Late.events⟩ ∈ Late.graph.edges Late.index ∧
      ¬Serves Late.batch Late.store request (importName "ds-auth" "./events.sol") Late.events ∧
      ¬StandsFor Late.batch Late.store (importName "ds-auth" "./events.sol") Late.events := by
  have built : Built Late.graph Late.batch := Built.empty.add _
  have mem : ⟨"./events.sol", Late.events⟩ ∈ Late.graph.edges Late.index := by decide
  obtain ⟨request, names, requested, sent, nothing⟩ := Late.answered
  have notServed : ¬Serves Late.batch Late.store request (importName "ds-auth" "./events.sol") Late.events := by
    rintro ⟨stored, _, same⟩
    rw [nothing] at same
    cases same
  refine ⟨request, names, requested, sent, mem, notServed, fun stands => notServed ?_⟩
  exact (import_served_iff built requested sent mem).1.mpr (.inl stands)

end SolidityBuild.Batch
