import SolidityBuild.Compiler.Result
import SolidityBuild.Request.Basic

/-!
# Coverage artifacts

One JSON document for every contract of a selected file. It carries all sources of the batch with their
numbers and texts, so that source maps can be read without going back to files that may have changed.
-/

namespace SolidityBuild.Artifact

/-- A compiled batch. -/
structure Compilation where
  store : SourceStore
  names : SourceNames
  request : CompilerRequest
  result : CompilerResult
  /-- The name and the release of the compiler. -/
  compiler : String
  release : String

namespace Compilation

/-- The number of a source: the one that the compiler reports, or the lowest 32 bits of its position in the request. -/
def sourceId (c : Compilation) (name : String) (position : Nat) : Nat :=
  (c.result.sourceIds.get? name).getD (position % CompilerResult.idLimit)

/-- The number and the file of a source. -/
def sourceReference (c : Compilation) (name : String) (position : Nat) : Json :=
  .object [
    ("file", .string (((c.names.fileOf? name).map Path.text).getD name)),
    ("id", .integer (c.sourceId name position))]

/-- The numbers and files of all sources. -/
def sourceReferences (c : Compilation) : Dict Json :=
  Dict.ofList (c.request.sources.keys.zipIdx.map fun (name, position) =>
    (name, c.sourceReference name position))

/-- The text of a source. -/
def sourceText? (c : Compilation) (name : String) : Option String :=
  ((c.names.fileOf? name).bind c.store.get?).map (·.content)

/-- The texts of all sources. -/
def sourceTexts (c : Compilation) : Dict Json :=
  Dict.ofList (c.request.sources.keys.filterMap fun name =>
    (c.sourceText? name).map fun text => (name, .string text))

/-- The compiler and what it was given, with the hash of the selected file. -/
def compilerRecord (c : Compilation) (hash : String) : Json :=
  .object [
    ("hash", .string hash),
    ("name", .string c.compiler),
    ("settings", c.request.settings.toJson.canonical),
    ("version", .string c.release)]

/-- The document of a contract. -/
def document (c : Compilation) (primary : Path) (hash : String) (contract : String × ContractOutput) : Json :=
  .object [
    ("compiler", c.compilerRecord hash),
    ("compilerOutput", contract.2.stripped),
    ("contractName", .string contract.1),
    ("filePath", .string (primary.key c.store.base)),
    ("sourceCodes", .ofDict c.sourceTexts),
    ("sources", .ofDict c.sourceReferences)]

/-- The documents of the contracts in a selected file, by contract. -/
def documents (c : Compilation) (primary : Path) : Result (List (String × Json)) :=
  match c.names.nameOf? primary with
  | none => .ok []
  | some name => do
    let unit ← c.store.unit primary
    return (c.result.contractsIn name).map fun contract =>
      (contract.1, c.document primary unit.hash contract)

end Compilation

end SolidityBuild.Artifact
