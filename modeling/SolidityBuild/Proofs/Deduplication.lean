import SolidityBuild.Proofs.Registrations
import SolidityBuild.Proofs.RequestNames

/-!
# Deduplicated requests

Whatever names were registered for whatever files, a request built from them sends every file under one name,
its owner. Of all other names it makes remappings to the owner, and copies where another name begins with them
(`deduplicated_of_registrations`).
-/

namespace SolidityBuild

/-- Whether a name is listed as the owner of a file. -/
def SourceNames.Owns (names : SourceNames) (owner : String) (file : Path) : Prop :=
  ∃ entry ∈ names.owners, entry.1.same file = true ∧ entry.2 = owner

namespace Batch

open NameRegistry (AcceptedIn OwnersApart WellFormed)

/-! ## What becomes of a name -/

/-- Whether the content of a file is sent under a name. -/
def SendsContent (store : SourceStore) (request : CompilerRequest) (name : String) (file : Path) : Prop :=
  ∃ entry, request.sources.get? name = some entry ∧ entryOf store file = .ok entry

def IsOwner (store : SourceStore) (request : CompilerRequest) (names : SourceNames) (name : String) (file : Path) :
    Prop :=
  names.Owns name file ∧ SendsContent store request name file

/-- Whether just one remapping replaces a name. -/
def IsAlias (batch : Batch) (name : String) : Prop := (batch.remappings.map (·.1)).count name = 1

def IsCopy (store : SourceStore) (request : CompilerRequest) (names : SourceNames) (name : String) (file : Path) :
    Prop :=
  ¬names.Owns name file ∧ SendsContent store request name file

/-- Just one of three statements holds. -/
def ExactlyOne (p q r : Prop) : Prop := p ∧ ¬q ∧ ¬r ∨ ¬p ∧ q ∧ ¬r ∨ ¬p ∧ ¬q ∧ r

/-- A request and the names in it, as they follow from names that were registered one after the other. -/
structure Deduplicated (registrations : List Registration) (batch : Batch) (store : SourceStore)
    (request : CompilerRequest) (names : SourceNames) : Prop where
  owner : ∀ {name file}, batch.registry.names.get? name = some file → ∃! owner, names.Owns owner file
  /-- The owner of a file is one of its names. -/
  back : ∀ {owner file}, names.Owns owner file →
    ∃ present, batch.registry.names.get? owner = some present ∧ present.same file = true
  /-- The owner of a file that was accepted under a primary name has been a primary name for it. -/
  primary : ∀ {r}, AcceptedIn registrations r → r.isPrimary = true → ∀ {owner}, names.Owns owner r.file →
    ∃ first, AcceptedIn registrations first ∧ first.isPrimary = true ∧ first.name = owner ∧
      first.file.same r.file = true
  kinds : ∀ {name file}, batch.registry.names.get? name = some file →
    ExactlyOne (IsOwner store request names name file) (IsAlias batch name) (IsCopy store request names name file)
  /-- Copies are sent for the names that are no owners and that another name begins with. -/
  copy : ∀ {name file}, batch.registry.names.get? name = some file →
    (IsCopy store request names name file ↔ ¬names.Owns name file ∧ ∃ other present,
      batch.registry.names.get? other = some present ∧ other ≠ name ∧ name.toList <+: other.toList)
  texts : request.settings.remappings = batch.remappings.map fun pair => pair.1 ++ "=" ++ pair.2
  /-- A remapping replaces a name without content by the owner of its file. -/
  target : ∀ pair ∈ batch.remappings, request.sources.get? pair.1 = none ∧
    ∃ file, batch.registry.names.get? pair.1 = some file ∧ names.Owns pair.2 file
  /-- A remapping replaces no other name. -/
  alone : ∀ pair ∈ batch.remappings, ∀ {other file}, batch.registry.names.get? other = some file →
    pair.1.toList <+: other.toList → other = pair.1
  files : ∀ name, (names.fileOf? name).isSome = true ↔ (request.sources.get? name).isSome = true
  inverse : ∀ {file owner}, names.nameOf? file = some owner →
    ∃ present, names.fileOf? owner = some present ∧ present.same file = true

section

variable {batch : Batch} {store : SourceStore} {settings : CompilerSettings} {request : CompilerRequest}
  {names : SourceNames} {name : String} {file : Path}

theorem owns_iff (apart : OwnersApart batch.registry)
    (requested : batch.request store settings = .ok (request, names)) :
    names.Owns name file ↔ batch.registry.owner? file = some name := by
  obtain ⟨_, _, _, _, rfl⟩ := request_eq_ok requested
  exact (NameRegistry.owner?_eq_some_iff apart).symm

theorem sendsContent_iff (wellFormed : WellFormed batch.registry)
    (requested : batch.request store settings = .ok (request, names))
    (named : batch.registry.names.get? name = some file) :
    SendsContent store request name file ↔
      batch.registry.owner? file = some name ∨ batch.registry.beginsAnother name = true := by
  constructor
  · rintro ⟨entry, sent, _⟩
    obtain ⟨present, owner, named', owned, which, _⟩ := (get?_sources requested).mp sent
    rw [named] at named'
    cases named'
    rcases which with rfl | another
    · exact .inl owned
    · exact .inr another
  · intro which
    obtain ⟨owner, owned⟩ := wellFormed.owned named
    have reason : name = owner ∨ batch.registry.beginsAnother name = true :=
      which.imp_left fun owns => Option.some.inj (owns.symm.trans owned)
    obtain ⟨entry, found⟩ := exists_entryOf requested named owned reason
    exact ⟨entry, (get?_sources requested).mpr ⟨file, owner, named, owned, reason, found⟩, found⟩

theorem isAlias_iff (wellFormed : WellFormed batch.registry) (named : batch.registry.names.get? name = some file) :
    IsAlias batch name ↔ batch.registry.owner? file ≠ some name ∧ batch.registry.beginsAnother name = false := by
  have mem : IsAlias batch name ↔ name ∈ batch.remappings.map (·.1) := by
    unfold IsAlias
    constructor
    · intro once
      exact List.count_pos_iff.mp (by omega)
    · exact List.count_eq_one_of_mem (nodup_remappings batch)
  rw [mem, List.mem_map]
  obtain ⟨owner, owned⟩ := wellFormed.owned named
  constructor
  · rintro ⟨⟨short, target⟩, listed, rfl⟩
    obtain ⟨present, named', owned', differs, alone⟩ := mem_remappings.mp listed
    dsimp only at named
    rw [named] at named'
    cases named'
    refine ⟨fun owns => differs ?_, alone⟩
    exact Option.some.inj (owns.symm.trans owned')
  · rintro ⟨differs, alone⟩
    refine ⟨(name, owner), mem_remappings.mpr ⟨file, named, owned, fun same => differs ?_, alone⟩, rfl⟩
    rw [same, owned]

/-- The names in a request are the owners and the names whose content is copied. -/
theorem isSome_fileOf?_request (requested : batch.request store settings = .ok (request, names)) :
    (names.fileOf? name).isSome = true ↔ (∃ entry ∈ batch.registry.owners, entry.2 = name) ∨
      ∃ present, (name, present, Sending.copied) ∈ sendings batch.registry := by
  obtain ⟨_, _, _, _, whole⟩ := request_eq_ok requested
  rw [whole, SourceNames.fileOf?, SourceNames.ofOwners, Dict.isSome_get?_ofList]
  simp only [List.mem_append, exists_or]
  refine or_congr ?owner (exists_congr fun present => ?copy)
  case owner => simp
  case copy =>
    rw [List.mem_filterMap]
    constructor
    · rintro ⟨⟨other, there, sent⟩, mem, same⟩
      dsimp only at same
      split at same
      · next copied =>
        cases same
        exact copied ▸ mem
      · cases same
    · intro mem
      exact ⟨_, mem, rfl⟩

theorem isSome_fileOf?_iff (wellFormed : WellFormed batch.registry) (apart : OwnersApart batch.registry)
    (requested : batch.request store settings = .ok (request, names)) :
    (names.fileOf? name).isSome = true ↔ (request.sources.get? name).isSome = true := by
  have sends {present : Path} (named : batch.registry.names.get? name = some present)
      (which : batch.registry.owner? present = some name ∨ batch.registry.beginsAnother name = true) :
      (request.sources.get? name).isSome = true := by
    obtain ⟨entry, sent, _⟩ := (sendsContent_iff wellFormed requested named).mpr which
    simp [sent]
  rw [isSome_fileOf?_request requested]
  constructor
  · rintro (⟨entry, mem, rfl⟩ | ⟨present, mem⟩)
    · obtain ⟨present, named, same⟩ := wellFormed.named entry mem
      refine sends named (.inl ((NameRegistry.owner?_eq_some_iff apart).mpr ⟨entry, mem, ?_, rfl⟩))
      exact Path.same_symm same
    · obtain ⟨named, owner, _, sent⟩ := mem_sendings.mp mem
      exact sends named (.inr (sending_eq_copied_iff.mp sent.symm).2)
  · intro sent
    obtain ⟨entry, there⟩ := Option.isSome_iff_exists.mp sent
    obtain ⟨present, owner, named, owned, which, _⟩ := (get?_sources requested).mp there
    by_cases isOwner : name = owner
    · obtain ⟨entry, mem, _, same⟩ := (NameRegistry.owner?_eq_some_iff apart).mp owned
      exact .inl ⟨entry, mem, same.trans isOwner.symm⟩
    · have copied := sending_eq_copied_iff.mpr ⟨isOwner, which.resolve_left isOwner⟩
      exact .inr ⟨present, mem_sendings.mpr ⟨named, owner, owned, copied.symm⟩⟩

theorem get?_of_owns (wellFormed : WellFormed batch.registry) (apart : OwnersApart batch.registry)
    (requested : batch.request store settings = .ok (request, names)) (owns : names.Owns name file) :
    ∃ present, batch.registry.names.get? name = some present ∧ present.same file = true := by
  obtain ⟨present, named, same, _⟩ := wellFormed.get?_owner ((owns_iff apart requested).mp owns)
  exact ⟨present, named, same⟩

theorem existsUnique_owns (wellFormed : WellFormed batch.registry) (apart : OwnersApart batch.registry)
    (requested : batch.request store settings = .ok (request, names))
    (named : batch.registry.names.get? name = some file) : ∃! owner, names.Owns owner file := by
  obtain ⟨owner, owned⟩ := wellFormed.owned named
  refine ⟨owner, (owns_iff apart requested).mpr owned, fun other owns => ?_⟩
  exact Option.some.inj (((owns_iff apart requested).mp owns).symm.trans owned)

theorem exactlyOne_kind (wellFormed : WellFormed batch.registry) (apart : OwnersApart batch.registry)
    (requested : batch.request store settings = .ok (request, names))
    (named : batch.registry.names.get? name = some file) :
    ExactlyOne (IsOwner store request names name file) (IsAlias batch name) (IsCopy store request names name file) := by
  unfold ExactlyOne IsOwner IsCopy
  rw [owns_iff apart requested, sendsContent_iff wellFormed requested named, isAlias_iff wellFormed named]
  by_cases isOwner : batch.registry.owner? file = some name
  · simp [isOwner]
  · cases batch.registry.beginsAnother name <;> simp [isOwner]

theorem isCopy_iff (wellFormed : WellFormed batch.registry) (apart : OwnersApart batch.registry)
    (requested : batch.request store settings = .ok (request, names))
    (named : batch.registry.names.get? name = some file) :
    IsCopy store request names name file ↔ ¬names.Owns name file ∧ ∃ other present,
      batch.registry.names.get? other = some present ∧ other ≠ name ∧ name.toList <+: other.toList := by
  unfold IsCopy
  rw [sendsContent_iff wellFormed requested named, owns_iff apart requested, ← NameRegistry.beginsAnother_iff]
  exact and_congr_right fun notOwner => or_iff_right notOwner

theorem get?_sources_of_remapped (requested : batch.request store settings = .ok (request, names))
    {pair : String × String} (remapped : pair ∈ batch.remappings) : request.sources.get? pair.1 = none := by
  obtain ⟨file, named, owned, differs, alone⟩ := mem_remappings.mp remapped
  by_contra sent
  obtain ⟨entry, there⟩ := Option.ne_none_iff_exists'.mp sent
  obtain ⟨present, owner, named', owned', which, _⟩ := (get?_sources requested).mp there
  rw [named] at named'
  cases named'
  rw [owned] at owned'
  cases owned'
  rcases which with same | another
  · exact differs same
  · rw [alone] at another
    cases another

theorem fileOf?_of_nameOf? (wellFormed : WellFormed batch.registry) (apart : OwnersApart batch.registry)
    (requested : batch.request store settings = .ok (request, names)) (found : names.nameOf? file = some name) :
    ∃ present, names.fileOf? name = some present ∧ present.same file = true := by
  rw [nameOf?_request requested] at found
  obtain ⟨present, named, same, owned⟩ := wellFormed.get?_owner found
  obtain ⟨entry, sent, _⟩ := (sendsContent_iff wellFormed requested named).mpr (.inl owned)
  have listed : (names.fileOf? name).isSome = true :=
    (isSome_fileOf?_iff wellFormed apart requested).mpr (by simp [sent])
  obtain ⟨there, isFile⟩ := Option.isSome_iff_exists.mp listed
  obtain ⟨present', named', same'⟩ := fileOf?_request wellFormed requested isFile
  rw [named] at named'
  cases named'
  exact ⟨there, isFile, Path.same_trans (Path.same_symm same') same⟩

end

/-- The owner of a file that was accepted under a primary name was itself accepted as a primary name of the file. -/
theorem exists_primary_registration {registrations : List Registration} {r : Registration}
    (accepted : AcceptedIn registrations r) (primary : r.isPrimary = true) {owner : String}
    (owned : (NameRegistry.empty.registerAll registrations).owner? r.file = some owner) :
    ∃ first, AcceptedIn registrations first ∧ first.isPrimary = true ∧ first.name = owner ∧
      first.file.same r.file = true := by
  have wellFormed := (NameRegistry.extends_registerAll .empty registrations).wellFormed NameRegistry.wellFormed_empty
  obtain ⟨other, owned', mem⟩ := NameRegistry.exists_primary_owner accepted primary
  rw [owned] at owned'
  cases owned'
  obtain ⟨first, accepted', primary', rfl⟩ := NameRegistry.mem_primaryNames_registerAll.mp mem
  obtain ⟨present, named, isFirst⟩ := NameRegistry.get?_of_acceptedIn accepted'
  obtain ⟨present', named', same, _⟩ := wellFormed.get?_owner owned
  rw [named] at named'
  cases named'
  exact ⟨first, accepted', primary', rfl, Path.same_trans (Path.same_symm isFirst) same⟩

/-- The request that follows from any registrations, with any of them accepted or passed over. -/
theorem deduplicated_of_registrations {registrations : List Registration} {units : List CompilationUnit}
    {store : SourceStore} {settings : CompilerSettings} {request : CompilerRequest} {names : SourceNames}
    (requested : Batch.request ⟨units, NameRegistry.empty.registerAll registrations⟩ store settings =
      .ok (request, names)) :
    Deduplicated registrations ⟨units, NameRegistry.empty.registerAll registrations⟩ store request names := by
  have wellFormed := (NameRegistry.extends_registerAll .empty registrations).wellFormed NameRegistry.wellFormed_empty
  have apart := NameRegistry.ownersApart_registerAll registrations
  refine ⟨existsUnique_owns wellFormed apart requested, get?_of_owns wellFormed apart requested, ?primary,
    exactlyOne_kind wellFormed apart requested, isCopy_iff wellFormed apart requested, ?texts, ?target, ?alone,
    fun name => isSome_fileOf?_iff wellFormed apart requested, fileOf?_of_nameOf? wellFormed apart requested⟩
  case primary =>
    intro r accepted isPrimary owner owns
    exact exists_primary_registration accepted isPrimary ((owns_iff apart requested).mp owns)
  case texts =>
    obtain ⟨_, _, _, same, _⟩ := request_eq_ok requested
    rw [same]
    rfl
  case target =>
    intro pair remapped
    obtain ⟨file, named, owned, _⟩ := mem_remappings.mp remapped
    exact ⟨get?_sources_of_remapped requested remapped, file, named, (owns_iff apart requested).mpr owned⟩
  case alone =>
    intro pair remapped other file named begins
    exact eq_of_begins remapped named begins

namespace Swapped

def auth : Path := .ofText "/p/lib/ds-auth/src/auth.sol"

def index : Path := .ofText "/p/lib/ds-auth/src/index.sol"

/-- A primary name that takes over, a name that is taken, and one that another name begins with. -/
def registrations : List Registration :=
  [⟨"ds-auth/auth.sol", auth, false⟩, ⟨"ds-auth/index.sol", index, false⟩, ⟨"ds-auth", index, false⟩,
    ⟨"ds-auth/auth.sol", index, false⟩, ⟨auth.text, auth, true⟩]

def batch : Batch := ⟨[], NameRegistry.empty.registerAll registrations⟩

def store : SourceStore where
  base := .ofText "/p"
  constants := Dict.empty
  units := [⟨auth, "import \"./index.sol\";\n", .primary⟩, ⟨index, "contract AuthIndex {}\n", .dependency⟩]
  aliases := Dict.empty
  vendored := none

theorem requests : (batch.request store .default).toOption.isSome = true := by decide +kernel

end Swapped

theorem deduplicated_of_registrations_swapped :
    ∃ request names, Swapped.batch.request Swapped.store .default = .ok (request, names) ∧
      Deduplicated Swapped.registrations Swapped.batch Swapped.store request names ∧
      names.Owns Swapped.auth.text Swapped.auth ∧ IsAlias Swapped.batch "ds-auth/auth.sol" ∧
      IsCopy Swapped.store request names "ds-auth" Swapped.index := by
  obtain ⟨⟨request, names⟩, requested⟩ := Option.isSome_iff_exists.mp Swapped.requests
  rw [toOption_eq_some_iff] at requested
  have whole : Deduplicated Swapped.registrations Swapped.batch Swapped.store request names :=
    deduplicated_of_registrations requested
  have apart := NameRegistry.ownersApart_registerAll Swapped.registrations
  have named : Swapped.batch.registry.names.get? "ds-auth" = some Swapped.index := by decide +kernel
  have others : Swapped.batch.registry.owner? Swapped.auth = some Swapped.auth.text ∧
      Swapped.batch.registry.owner? Swapped.index = some "ds-auth/index.sol" := by decide +kernel
  have once : (Swapped.batch.remappings.map (·.1)).count "ds-auth/auth.sol" = 1 := by decide +kernel
  refine ⟨request, names, requested, whole, (owns_iff apart requested).mpr others.1, once, ?_⟩
  refine (whole.copy named).mpr ⟨?_, "ds-auth/auth.sol", Swapped.auth, by decide +kernel, by decide, by decide⟩
  rw [owns_iff apart requested]
  change Swapped.batch.registry.owner? Swapped.index ≠ _
  rw [others.2]
  decide

end Batch

end SolidityBuild
