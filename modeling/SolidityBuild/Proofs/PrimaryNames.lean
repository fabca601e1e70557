import SolidityBuild.Proofs.RequestNames

/-!
# Names of primary files

A selected file is registered under its path when its unit is added to a batch. It is sent under that name
unless an earlier unit has already used the name for another file, as the name of an import that a relative
reference was joined to (`owner?_primary_iff`).
-/

namespace SolidityBuild.Batch

open NameRegistry (Free Extends WellFormed)

/-- A selected file has its path as its name in the request, with its own content, and the compiler is not
told to replace that name. -/
structure IsKept (batch : Batch) (store : SourceStore) (request : CompilerRequest) (names : SourceNames)
    (primary : Path) : Prop where
  content : ∃ stored entry, store.unit primary = .ok stored ∧ request.sources.get? primary.text = some entry ∧
    entry.content = stored.content
  notAlias : ∀ pair ∈ batch.remappings, pair.1 ≠ primary.text
  name : names.nameOf? primary = some primary.text

/-- A file can become the owner of its path: the path is free for it, and no other primary name owns it. -/
def CanOwn (registry : NameRegistry) (primary : Path) : Prop :=
  registry.Free primary.text primary ∧
    ∀ owner, registry.owner? primary = some owner → owner = primary.text ∨ owner ∉ registry.primaryNames

/-- A file owns its path in the end just if it could become the owner when its unit was added. -/
theorem owner?_primary_iff (graph : ImportGraph) (before after : List CompilationUnit) (unit : CompilationUnit) :
    (ofUnits graph (before ++ unit :: after)).registry.owner? unit.primary = some unit.primary.text ↔
      CanOwn (ofUnits graph before).registry unit.primary := by
  have ext := extends_unit graph before unit after
  have wellFormed := wellFormed_ofUnits graph (before ++ unit :: after)
  have all := extends_ofUnits graph before (unit :: after)
  generalize (ofUnits graph before).registry = registry at ext all ⊢
  generalize (ofUnits graph (before ++ unit :: after)).registry = final at ext all wellFormed ⊢
  constructor
  · intro owns
    constructor
    · intro present found
      obtain ⟨file, named, same, _⟩ := wellFormed.get?_owner owns
      rw [all.get? found] at named
      cases named
      exact same
    · intro owner found
      by_cases primary : owner ∈ registry.primaryNames
      · have kept := (all.owner found primary).1
        rw [owns] at kept
        exact .inl (Option.some.inj kept).symm
      · exact .inr primary
  · rintro ⟨free, owners⟩
    have primary : unit.primary.text ∈
        (registry.register unit.primary.text unit.primary true).primaryNames := by
      rw [NameRegistry.primaryNames_register free]
      exact NameRegistry.mem_primaryNames_withName.mpr (.inr ⟨rfl, rfl⟩)
    have owns : (registry.register unit.primary.text unit.primary true).owner? unit.primary =
        some unit.primary.text := by
      rw [NameRegistry.owner?_register free]
      split
      · rfl
      next unchanged =>
      by_contra other
      refine unchanged ⟨NameRegistry.takesOver_iff.mpr fun owner found => ?_, Path.same_refl _⟩
      have differs : owner ≠ unit.primary.text := fun same => other (same ▸ found)
      exact ⟨differs, rfl, (owners owner found).resolve_left differs⟩
    exact (ext.owner owns primary).1

/-- A selected file is kept under its path just if the path was free for it when its unit was added. -/
theorem isKept_iff {graph : ImportGraph} {batch : Batch} {before after : List CompilationUnit}
    {unit : CompilationUnit} {store : SourceStore} {settings : CompilerSettings} {request : CompilerRequest}
    {names : SourceNames} (built : Built graph batch) (units : batch.units = before ++ unit :: after)
    (requested : batch.request store settings = .ok (request, names)) :
    IsKept batch store request names unit.primary ↔ CanOwn (ofUnits graph before).registry unit.primary := by
  have whole := built.eq_ofUnits
  rw [units] at whole
  have wellFormed := wellFormed_ofUnits graph (before ++ unit :: after)
  have owner_iff := owner?_primary_iff graph before after unit
  rw [← whole] at owner_iff wellFormed
  rw [← owner_iff]
  constructor
  · intro kept
    rw [← nameOf?_request requested]
    exact kept.name
  · intro owns
    obtain ⟨file, named, isPrimary, owned⟩ := wellFormed.get?_owner owns
    refine ⟨?_, ?_, ?_⟩
    · obtain ⟨entry, found⟩ := exists_entryOf requested named owned (.inl rfl)
      have sent := (get?_sources requested).mpr ⟨file, _, named, owned, .inl rfl, found⟩
      obtain ⟨stored, loaded, same⟩ := bind_eq_ok_iff.mp found
      cases same
      refine ⟨stored, _, ?_, sent, rfl⟩
      rw [SourceStore.unit_eq_ok_iff, ← store.get?_congr isPrimary]
      exact SourceStore.unit_eq_ok_iff.mp loaded
    · intro pair listed same
      obtain ⟨short, target⟩ := pair
      obtain ⟨other, named', owned', differs, _⟩ := mem_remappings.mp listed
      dsimp only at same
      subst same
      rw [named] at named'
      cases named'
      rw [owned] at owned'
      exact differs (Option.some.inj owned')
    · rw [nameOf?_request requested, owns]

/-! ## A path that is taken -/

namespace Shadowed

def first : Path := .ofText "/p/lib/A.sol"

def second : Path := .ofText "/p/lib/B.sol"

def imported : Path := .ofText "/p/contracts/X.sol"

def nested : Path := .ofText "/p/contracts/B.sol"

/-- The first file imports `./X.sol`, which is not beside it but in `contracts`, and so is the `./B.sol` that
this one imports. -/
def graph : ImportGraph :=
  ⟨[⟨nested, [], []⟩, ⟨imported, [nested], [⟨"./B.sol", nested⟩]⟩,
    ⟨first, [nested, imported], [⟨"./X.sol", imported⟩]⟩, ⟨second, [], []⟩]⟩

def store : SourceStore where
  base := .ofText "/p"
  constants := Dict.empty
  units := [⟨first, "import \"./X.sol\";\n", .primary⟩, ⟨second, "contract LibB {}\n", .primary⟩,
    ⟨imported, "import \"./B.sol\";\n", .dependency⟩, ⟨nested, "contract B {}\n", .dependency⟩]
  aliases := Dict.empty
  vendored := none

def batch : Batch := (Batch.empty.add graph ⟨first, [nested, imported]⟩).add graph ⟨second, []⟩

theorem requests : (batch.request store .default).toOption.isSome = true := by decide +kernel

@[irreducible] def answer : CompilerRequest × SourceNames := (batch.request store .default).toOption.get requests

theorem requested : batch.request store .default = .ok (answer.1, answer.2) := eq_ok_pair (by rw [answer])

end Shadowed

theorem not_isKept_shadowed :
    ¬IsKept Shadowed.batch Shadowed.store Shadowed.answer.1 Shadowed.answer.2 Shadowed.second := by
  have built : Built Shadowed.graph Shadowed.batch := (Built.empty.add _).add _
  have units : Shadowed.batch.units =
      [⟨Shadowed.first, [Shadowed.nested, Shadowed.imported]⟩] ++ ⟨Shadowed.second, []⟩ :: [] := rfl
  intro kept
  obtain ⟨free, _⟩ := (isKept_iff built units Shadowed.requested).mp kept
  have taken : (ofUnits Shadowed.graph [⟨Shadowed.first, [Shadowed.nested, Shadowed.imported]⟩]).registry.names.get?
      Shadowed.second.text = some Shadowed.nested := by decide +kernel
  exact absurd (free _ taken) (by decide)

end SolidityBuild.Batch
