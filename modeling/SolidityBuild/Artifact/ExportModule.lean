import SolidityBuild.Compiler.Result
import SolidityBuild.Json.Printer
import SolidityBuild.Manifest
import SolidityBuild.Request.Basic

/-!
# Export modules

The JavaScript module of a unit exports the interface and the code of the contracts of all its files,
and the manifest of the build: a hash for every file, and the release of the compiler at the end.
-/

namespace SolidityBuild.Artifact

/-- The first line of every module. -/
def moduleHeader : String := "/* This is an autogenerated file. DO NOT EDIT MANUALLY */"

/-- The exports of a contract. -/
def contractLines (contract : String × ContractOutput) : List String :=
  let (name, output) := contract
  ["exports." ++ name ++ "Abi = " ++ output.interface.compact ++ ";",
    "exports." ++ name ++ "ByteCode = " ++ Json.quoted output.bytecode ++ ";",
    "exports." ++ name ++ "RuntimeByteCode = " ++ Json.quoted output.deployedBytecode ++ ";"]

/-- The export of the hash of the file with the given key. -/
def hashLine (key hash : String) : String :=
  "exports[" ++ Json.quoted (Manifest.hashExport key) ++ "] = " ++ Json.quoted hash ++ ";"

/-- The export of the release. -/
def releaseLine (release : String) : String :=
  "exports." ++ Manifest.releaseExport ++ " = " ++ Json.quoted release ++ ";"

/-- The contracts that the compiler found in a file. -/
def contractsOf (names : SourceNames) (result : CompilerResult) (file : Path) :
    List (String × ContractOutput) :=
  match names.nameOf? file with
  | some name => result.contractsIn name
  | none => []

/-- The exports of a file: its contracts, then its hash. -/
def fileLines (store : SourceStore) (names : SourceNames) (result : CompilerResult) (file : Path) :
    Result (List String) := do
  let unit ← store.unit file
  return (contractsOf names result file).flatMap contractLines ++
    [hashLine (file.key store.base) unit.hash]

/-- The module of a unit. -/
def exportModule (store : SourceStore) (names : SourceNames) (result : CompilerResult)
    (unit : CompilationUnit) (release : String) : Result String := do
  let lines ← unit.files.mapM (fileLines store names result)
  return moduleHeader ++ "\n\n" ++ "\n".intercalate (lines.flatten ++ [releaseLine release]) ++ "\n"

end SolidityBuild.Artifact
