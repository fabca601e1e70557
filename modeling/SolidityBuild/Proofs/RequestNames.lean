import SolidityBuild.Proofs.NameRegistry
import SolidityBuild.Proofs.SourceLoading

/-!
# Names in requests

What a request sends for a name is told by the registry of the batch: content for the owner of a file and
for copies, a remapping for all other names (`get?_sources`, `mem_remappings`). However a batch came about,
its registry is that of its units in their order (`Built.eq_ofUnits`).
-/

namespace SolidityBuild.Batch

open NameRegistry (Extends WellFormed)

/-! ## Batches -/

/-- A batch that comes about by adding units and by retaining some of them, in any order. -/
inductive Built (graph : ImportGraph) : Batch → Prop
  | empty : Built graph .empty
  | add {batch : Batch} (unit : CompilationUnit) : Built graph batch → Built graph (batch.add graph unit)
  | retain {batch : Batch} (keep : CompilationUnit → Bool) : Built graph batch → Built graph (batch.retain graph keep)

theorem units_foldl_add (graph : ImportGraph) (units : List CompilationUnit) (batch : Batch) :
    (units.foldl (fun batch unit => batch.add graph unit) batch).units = batch.units ++ units := by
  induction units generalizing batch with
  | nil => simp
  | cons unit rest ih =>
    rw [List.foldl_cons, ih]
    simp [add]

theorem units_ofUnits (graph : ImportGraph) (units : List CompilationUnit) : (ofUnits graph units).units = units := by
  rw [ofUnits, units_foldl_add]
  simp [empty]

theorem ofUnits_concat (graph : ImportGraph) (units : List CompilationUnit) (unit : CompilationUnit) :
    ofUnits graph (units ++ [unit]) = (ofUnits graph units).add graph unit := by
  simp [ofUnits, List.foldl_append]

/-- The registry of a batch does not tell which units were dropped on the way. -/
theorem Built.eq_ofUnits {graph : ImportGraph} {batch : Batch} (built : Built graph batch) :
    batch = ofUnits graph batch.units := by
  induction built with
  | empty => rfl
  | @add batch unit _ ih =>
    have units : (batch.add graph unit).units = batch.units ++ [unit] := rfl
    rw [units, ofUnits_concat, ← ih]
  | retain keep _ _ =>
    unfold Batch.retain
    rw [units_ofUnits]

theorem extends_ofUnits (graph : ImportGraph) (before after : List CompilationUnit) :
    Extends (ofUnits graph before).registry (ofUnits graph (before ++ after)).registry := by
  induction after generalizing before with
  | nil =>
    rw [List.append_nil]
    exact .refl _
  | cons unit rest ih =>
    have later := ih (before ++ [unit])
    rw [List.append_assoc, List.singleton_append, ofUnits_concat] at later
    have here := (NameRegistry.extends_register _ _ _ _).trans
      (NameRegistry.extends_registerUnit graph (ofUnits graph before).registry unit.primary)
    exact here.trans later

theorem extends_unit (graph : ImportGraph) (before : List CompilationUnit) (unit : CompilationUnit)
    (after : List CompilationUnit) :
    Extends ((ofUnits graph before).registry.register unit.primary.text unit.primary true)
      (ofUnits graph (before ++ unit :: after)).registry := by
  have rest := extends_ofUnits graph (before ++ [unit]) after
  rw [List.append_assoc, List.singleton_append, ofUnits_concat] at rest
  exact (NameRegistry.extends_registerUnit graph _ _).trans rest

theorem wellFormed_ofUnits (graph : ImportGraph) (units : List CompilationUnit) :
    WellFormed (ofUnits graph units).registry :=
  (extends_ofUnits graph [] units).wellFormed NameRegistry.wellFormed_empty

/-! ## What is sent -/

theorem mem_sendings {registry : NameRegistry} {name : String} {file : Path} {sent : Sending} :
    (name, file, sent) ∈ sendings registry ↔ registry.names.get? name = some file ∧
      ∃ owner, registry.owner? file = some owner ∧ sent = sending registry name owner := by
  unfold sendings
  rw [Dict.get?_eq_some_iff]
  simp only [List.mem_filterMap, Option.map_eq_some_iff, Prod.mk.injEq]
  constructor
  · rintro ⟨⟨other, there⟩, listed, owner, found, rfl, rfl, rfl⟩
    exact ⟨listed, owner, found, rfl⟩
  · rintro ⟨listed, owner, found, rfl⟩
    exact ⟨(name, file), listed, owner, found, rfl, rfl, rfl⟩

/-- What is made of some items has the keys of some of them, in their order. -/
theorem keys_filterMap_sublist {α β κ : Type} {f : α → Option β} {key : α → κ} {key' : β → κ}
    (keeps : ∀ a b, f a = some b → key' b = key a) (items : List α) :
    ((items.filterMap f).map key').Sublist (items.map key) := by
  induction items with
  | nil => exact .refl _
  | cons item rest ih =>
    rw [List.filterMap_cons, List.map_cons]
    cases made : f item with
    | none => exact ih.cons _
    | some b =>
      rw [List.map_cons, keeps item b made]
      exact ih.cons_cons _

/-- Every name is sent at most once. -/
theorem nodup_sendings (registry : NameRegistry) : ((sendings registry).map (·.1)).Nodup := by
  refine (Entries.keys_nodup registry.names.ordered).sublist (keys_filterMap_sublist ?_ _)
  rintro ⟨name, file⟩ sent made
  obtain ⟨owner, _, rfl⟩ := Option.map_eq_some_iff.mp made
  rfl

/-- The names that are sent with content. -/
def withContent (registry : NameRegistry) : List (String × Path × Sending) :=
  (sendings registry).filter fun (_, _, sending) => sending matches .owned | .copied

/-- Content is sent for the owners and for the names that begin another one. -/
theorem mem_withContent {registry : NameRegistry} {name : String} {file : Path} {sent : Sending} :
    (name, file, sent) ∈ withContent registry ↔ registry.names.get? name = some file ∧
      ∃ owner, registry.owner? file = some owner ∧ (name = owner ∨ registry.beginsAnother name = true) ∧
        sent = sending registry name owner := by
  unfold withContent
  rw [List.mem_filter, mem_sendings]
  constructor
  · rintro ⟨⟨named, owner, owned, rfl⟩, content⟩
    refine ⟨named, owner, owned, ?_, rfl⟩
    by_cases isOwner : name = owner
    · exact .inl isOwner
    · right
      by_contra alone
      simp [sending, isOwner, alone] at content
  · rintro ⟨named, owner, owned, which, rfl⟩
    refine ⟨⟨named, owner, owned, rfl⟩, ?_⟩
    by_cases isOwner : name = owner
    · simp [sending, isOwner]
    · simp [sending, isOwner, which.resolve_left isOwner]

theorem nodup_withContent (registry : NameRegistry) : ((withContent registry).map (·.1)).Nodup :=
  (nodup_sendings registry).sublist (List.filter_sublist.map _)

/-- The remappings of a batch: names, and the names that own their content. -/
def remappings (batch : Batch) : List (String × String) :=
  (sendings batch.registry).filterMap fun (name, _, sending) =>
    match sending with
    | .remapped owner => some (name, owner)
    | _ => none

theorem nodup_remappings (batch : Batch) : (batch.remappings.map (·.1)).Nodup := by
  refine (nodup_sendings batch.registry).sublist (keys_filterMap_sublist ?_ _)
  rintro ⟨name, file, sent⟩ pair made
  cases sent with
  | remapped owner => cases made; rfl
  | owned => cases made
  | copied => cases made

theorem sending_eq_remapped_iff {registry : NameRegistry} {name owner target : String} :
    sending registry name owner = .remapped target ↔
      name ≠ owner ∧ registry.beginsAnother name = false ∧ target = owner := by
  unfold sending
  by_cases isOwner : name = owner
  · simp [isOwner]
  · by_cases another : registry.beginsAnother name = true
    · simp [isOwner, another]
    · simp [isOwner, another, eq_comm]

theorem sending_eq_copied_iff {registry : NameRegistry} {name owner : String} :
    sending registry name owner = .copied ↔ name ≠ owner ∧ registry.beginsAnother name = true := by
  unfold sending
  by_cases isOwner : name = owner
  · simp [isOwner]
  · simp [isOwner]

theorem mem_remappings {batch : Batch} {name owner : String} :
    (name, owner) ∈ batch.remappings ↔ ∃ file, batch.registry.names.get? name = some file ∧
      batch.registry.owner? file = some owner ∧ name ≠ owner ∧ batch.registry.beginsAnother name = false := by
  unfold remappings
  simp only [List.mem_filterMap]
  constructor
  · rintro ⟨⟨other, file, sent⟩, listed, same⟩
    obtain ⟨named, holder, owned, isSending⟩ := mem_sendings.mp listed
    dsimp only at same
    split at same
    · cases same
      obtain ⟨differs, alone, rfl⟩ := sending_eq_remapped_iff.mp isSending.symm
      exact ⟨file, named, owned, differs, alone⟩
    · cases same
  · rintro ⟨file, named, owned, differs, alone⟩
    have remapped := sending_eq_remapped_iff.mpr ⟨differs, alone, rfl⟩
    exact ⟨(name, file, .remapped owner), mem_sendings.mpr ⟨named, owner, owned, remapped.symm⟩, rfl⟩

/-- No other name begins with a name that is remapped. -/
theorem eq_of_begins {batch : Batch} {pair : String × String} (remapped : pair ∈ batch.remappings) {name : String}
    {file : Path} (named : batch.registry.names.get? name = some file) (begins : pair.1.toList <+: name.toList) :
    name = pair.1 := by
  obtain ⟨_, _, _, _, alone⟩ := mem_remappings.mp remapped
  by_contra differs
  have another := NameRegistry.beginsAnother_iff.mpr ⟨name, file, named, differs, begins⟩
  rw [alone] at another
  cases another

section

variable {batch : Batch} {store : SourceStore} {settings : CompilerSettings} {request : CompilerRequest}
  {names : SourceNames}

/-- What a request and the names in it are made of. The remappings are sent as texts, with an equals sign in
the middle. -/
theorem request_eq_ok (requested : batch.request store settings = .ok (request, names)) :
    ∃ entries, (withContent batch.registry).mapM
        (fun (name, file, _) => return (name, ← entryOf store file)) = .ok entries ∧
      request.sources = Dict.ofList entries ∧
      request.settings = settings.withRemappings (batch.remappings.map fun pair => pair.1 ++ "=" ++ pair.2) ∧
      names = .ofOwners batch.registry.owners ((sendings batch.registry).filterMap fun (name, file, sending) =>
        if sending = .copied then some (name, file) else none) := by
  unfold Batch.request at requested
  obtain ⟨entries, read, whole⟩ := bind_eq_ok_iff.mp requested
  cases whole
  refine ⟨entries, read, rfl, ?_, rfl⟩
  unfold remappings
  rw [List.map_filterMap]
  dsimp only
  congr 2
  funext entry
  obtain ⟨name, file, sent⟩ := entry
  cases sent <;> rfl

theorem nameOf?_request (requested : batch.request store settings = .ok (request, names)) (file : Path) :
    names.nameOf? file = batch.registry.owner? file := by
  obtain ⟨_, _, _, _, whole⟩ := request_eq_ok requested
  rw [whole]
  rfl

/-- The file of a name in an answer is the one that the registry has for it. -/
theorem fileOf?_request (wellFormed : WellFormed batch.registry)
    (requested : batch.request store settings = .ok (request, names)) {name : String} {file : Path}
    (found : names.fileOf? name = some file) :
    ∃ present, batch.registry.names.get? name = some present ∧ present.same file = true := by
  obtain ⟨_, _, _, _, whole⟩ := request_eq_ok requested
  subst whole
  unfold SourceNames.fileOf? SourceNames.ofOwners at found
  dsimp only at found
  rw [Dict.get?_ofList] at found
  rcases List.mem_append.mp (List.mem_reverse.mp (Entries.mem_of_find? found)) with owner | copy
  · obtain ⟨entry, listed, same⟩ := List.mem_map.mp owner
    cases same
    exact wellFormed.named entry listed
  · obtain ⟨⟨other, there, sent⟩, listed, same⟩ := List.mem_filterMap.mp copy
    dsimp only at same
    split at same
    · cases same
      exact ⟨file, (mem_sendings.mp listed).1, Path.same_refl file⟩
    · cases same

theorem keys_of_mapM {sent : List (String × Path × Sending)} {entries : List (String × SourceEntry)}
    (read : (sent.mapM fun (name, file, _) => return (name, ← entryOf store file)) = .ok entries) :
    entries.map (·.1) = sent.map (·.1) := by
  have related := mapM_eq_ok_iff.mp read
  clear read
  induction related with
  | nil => rfl
  | cons here _ ih =>
    obtain ⟨source, _, same⟩ := bind_eq_ok_iff.mp here
    cases same
    rw [List.map_cons, List.map_cons, ih]

/-- A request has an entry for everything whose content it sends. -/
theorem exists_entryOf (requested : batch.request store settings = .ok (request, names)) {name owner : String}
    {file : Path} (named : batch.registry.names.get? name = some file)
    (owned : batch.registry.owner? file = some owner)
    (which : name = owner ∨ batch.registry.beginsAnother name = true) :
    ∃ entry, entryOf store file = .ok entry := by
  obtain ⟨entries, read, _⟩ := request_eq_ok requested
  obtain ⟨value, _, here⟩ := ok_of_mem_of_mapM read (mem_withContent.mpr ⟨named, owner, owned, which, rfl⟩)
  obtain ⟨entry, found, _⟩ := bind_eq_ok_iff.mp here
  exact ⟨entry, found⟩

/-- The sources of a request are the entries of the names that are sent with content. -/
theorem get?_sources (requested : batch.request store settings = .ok (request, names)) {name : String}
    {entry : SourceEntry} :
    request.sources.get? name = some entry ↔ ∃ file owner, batch.registry.names.get? name = some file ∧
      batch.registry.owner? file = some owner ∧ (name = owner ∨ batch.registry.beginsAnother name = true) ∧
      entryOf store file = .ok entry := by
  obtain ⟨entries, read, sources, _⟩ := request_eq_ok requested
  have nodup : (entries.map (·.1)).Nodup := by
    rw [keys_of_mapM read]
    exact nodup_withContent batch.registry
  rw [sources, Dict.get?_ofList_of_nodup nodup]
  constructor
  · intro mem
    obtain ⟨⟨other, file, sent⟩, listed, here⟩ := mem_of_mem_of_mapM read mem
    obtain ⟨source, found, same⟩ := bind_eq_ok_iff.mp here
    cases same
    obtain ⟨named, owner, owned, which, _⟩ := mem_withContent.mp listed
    exact ⟨file, owner, named, owned, which, found⟩
  · rintro ⟨file, owner, named, owned, which, found⟩
    obtain ⟨value, listed, here⟩ := ok_of_mem_of_mapM read (mem_withContent.mpr ⟨named, owner, owned, which, rfl⟩)
    obtain ⟨source, found', same⟩ := bind_eq_ok_iff.mp here
    rw [found] at found'
    cases found'
    cases same
    exact listed

end

end SolidityBuild.Batch
