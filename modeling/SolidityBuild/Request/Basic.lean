import SolidityBuild.Compiler.Settings
import SolidityBuild.Digest.Keccak256
import SolidityBuild.Request.Names

/-!
# Requests to the compiler

One request covers the units of a batch. Every file is sent once, under the name that owns its content;
its other names become remappings to the owner. A name with which another name begins cannot be a
remapping and gets a copy of the content.
-/

namespace SolidityBuild

/-- A source as it is sent. -/
structure SourceEntry where
  /-- The Keccak-256 of the content. -/
  hash : String
  urls : List String
  content : String
deriving DecidableEq

/-- A request to the compiler. -/
structure CompilerRequest where
  sources : Dict SourceEntry
  settings : CompilerSettings
deriving DecidableEq

namespace CompilerRequest

def language : String := "Solidity"

/-- The request as it is written for the compiler. -/
def toJson (request : CompilerRequest) : Json :=
  .object [
    ("language", .string language),
    ("sources", .ofDict (request.sources.mapValues fun source => .object [
      ("keccak256", .string source.hash),
      ("urls", .array (source.urls.map .string)),
      ("content", .string source.content)])),
    ("settings", request.settings.toJson)]

end CompilerRequest

/-- A file selected for the build together with its import closure. -/
structure CompilationUnit where
  primary : Path
  closure : List Path
deriving DecidableEq

/-- The files of a unit, each after those it imports. -/
def CompilationUnit.files (unit : CompilationUnit) : List Path := unit.closure ++ [unit.primary]

/-- The names that sources have in a request. -/
structure SourceNames where
  /-- The name that owns the content of each file. -/
  owners : List (Path × String)
  /-- The file of each name that is sent with content. -/
  files : Dict Path

namespace SourceNames

/-- The name of a file. -/
def nameOf? (names : SourceNames) (file : Path) : Option String :=
  (names.owners.find? (·.1.same file)).map (·.2)

/-- The file of a name. -/
def fileOf? (names : SourceNames) (name : String) : Option Path := names.files.get? name

def size (names : SourceNames) : Nat := names.owners.length

def isEmpty (names : SourceNames) : Bool := names.owners.isEmpty

/-- The names given to files, and copies of them under further names. -/
def ofOwners (owners : List (Path × String)) (copies : List (String × Path)) : SourceNames :=
  ⟨owners, Dict.ofList (owners.map (fun entry => (entry.2, entry.1)) ++ copies)⟩

end SourceNames

/-- The units of a batch and the names of their files. -/
structure Batch where
  units : List CompilationUnit
  registry : NameRegistry

namespace Batch

/-- The batch without units. -/
def empty : Batch := ⟨[], .empty⟩

/-- Adds a unit. -/
def add (batch : Batch) (graph : ImportGraph) (unit : CompilationUnit) : Batch :=
  ⟨batch.units ++ [unit], batch.registry.registerUnit graph unit.primary⟩

/-- The batch of the given units. -/
def ofUnits (graph : ImportGraph) (units : List CompilationUnit) : Batch :=
  units.foldl (fun batch unit => batch.add graph unit) empty

/-- Keeps the units that pass a test, and only the names that these reach. -/
def retain (batch : Batch) (graph : ImportGraph) (keep : CompilationUnit → Bool) : Batch :=
  ofUnits graph (batch.units.filter keep)

/-- What is sent for a name. -/
inductive Sending where
  /-- The content of the file, which this name owns. -/
  | owned
  /-- A remapping to the owner. -/
  | remapped (owner : String)
  /-- A copy of the content. -/
  | copied
deriving DecidableEq

/-- What is sent for a name that has an owner. -/
def sending (registry : NameRegistry) (name owner : String) : Sending :=
  if name = owner then .owned else if registry.beginsAnother name then .copied else .remapped owner

/-- The source of a file. -/
def entryOf (store : SourceStore) (file : Path) : Result SourceEntry := do
  let unit ← store.unit file
  return ⟨"0x" ++ Digest.Keccak256.hexDigest unit.content, [file.text], unit.content⟩

/-- The names with what is sent for them. -/
def sendings (registry : NameRegistry) : List (String × Path × Sending) :=
  registry.names.toList.filterMap fun (name, file) =>
    (registry.owner? file).map fun owner => (name, file, sending registry name owner)

/-- The request for a batch and the names in it. -/
def request (batch : Batch) (store : SourceStore) (settings : CompilerSettings) :
    Result (CompilerRequest × SourceNames) := do
  let sent := sendings batch.registry
  let remappings := sent.filterMap fun (name, _, sending) =>
    match sending with
    | .remapped owner => some (name ++ "=" ++ owner)
    | _ => none
  let copies := sent.filterMap fun (name, file, sending) =>
    if sending = .copied then some (name, file) else none
  let entries ← (sent.filter fun (_, _, sending) => sending matches .owned | .copied).mapM
    fun (name, file, _) => return (name, ← entryOf store file)
  return (⟨Dict.ofList entries, settings.withRemappings remappings⟩,
    .ofOwners batch.registry.owners copies)

end Batch

end SolidityBuild
