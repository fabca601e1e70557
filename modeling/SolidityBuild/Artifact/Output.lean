import SolidityBuild.Artifact.Coverage
import SolidityBuild.Artifact.ExportModule
import SolidityBuild.Artifact.Flattened
import SolidityBuild.Configuration

/-!
# Output files

For a selected file `X.sol` a build writes the module `X.sol.js`, the flattened source `X_all.sol` and
one document for every contract in it; for the whole batch it writes the request and the answer of the
compiler.
-/

namespace SolidityBuild.Artifact

/-- A file to be written. -/
structure OutputFile where
  path : Path
  contents : String
deriving DecidableEq

/-- The name that the outputs of a file share: its name without `.sol`. -/
def stem (file : Path) : String :=
  let name := file.fileName?.getD ""
  let extension := ".sol"
  if extension.toList.isSuffixOf name.toList then
    String.ofList (name.toList.take (name.length - extension.length))
  else name

/-- Where the module of a file is. -/
def modulePath (config : Configuration) (file : Path) : Path :=
  config.outputJsDirectory.child (stem file ++ ".sol.js")

/-- Where the flattened source of a file is. -/
def flattenedPath (config : Configuration) (file : Path) : Path :=
  config.outputSolDirectory.child (stem file ++ "_all.sol")

/-- Where the document of a contract is. -/
def documentPath (config : Configuration) (contract : String) : Path :=
  config.artifactsDirectory.child (contract ++ ".json")

/-! ## Directories -/

/-- Makes sure that an output directory is there, and creates it where that is allowed. Also answers the
tree that a failure leaves. -/
def ensureDirectory (tree : FileTree) (directory : Path) (create : Bool) : Result Unit × FileTree :=
  if tree.isDirectory directory then (.ok (), tree)
  else if tree.isPresent directory then (.error (.configuration (.notDirectory directory)), tree)
  else if !create then (.error (.configuration (.missingDirectory directory)), tree)
  else
    match tree.makeDirectories directory with
    | (.ok (), made) => (.ok (), made)
    | (.error fault, left) => (.error (.file directory fault), left)

/-- Makes sure of several output directories, up to the first that fails. -/
def ensureDirectories (create : Bool) : List Path → FileTree → Result Unit × FileTree
  | [], tree => (.ok (), tree)
  | directory :: rest, tree =>
    match ensureDirectory tree directory create with
    | (.ok (), tree) => ensureDirectories create rest tree
    | failed => failed

/-- The output directories of a configuration. -/
def directories (config : Configuration) : List Path :=
  [config.outputJsDirectory, config.outputSolDirectory, config.artifactsDirectory]

/-! ## Contents -/

/-- The outputs of a unit. -/
def unitOutputs (config : Configuration) (c : Compilation) (unit : CompilationUnit) :
    Result (List OutputFile) := do
  let text ← exportModule c.store c.names c.result unit c.release
  let flat ← flattened c.store unit
  let documents ← c.documents unit.primary
  return ⟨modulePath config unit.primary, text⟩ :: ⟨flattenedPath config unit.primary, flat⟩ ::
    documents.map fun (contract, document) => ⟨documentPath config contract, document.pretty⟩

/-- The request as it was sent and the answer without assembly listings. -/
def snapshot (config : Configuration) (c : Compilation) : List OutputFile :=
  [⟨config.outputSolDirectory.child "solcStandardInput.json", c.request.toJson.pretty⟩,
    ⟨config.outputSolDirectory.child "solcStandardOutput.json", c.result.stripped.pretty⟩]

/-- Adds a file to be written; it takes the place of an earlier one with the same path. -/
def put (files : List OutputFile) (file : OutputFile) : List OutputFile :=
  if files.any (·.path.same file.path) then
    files.map fun present =>
      if present.path.same file.path then { present with contents := file.contents } else present
  else files ++ [file]

/-- All files of a batch, each path once; of several contents the last one stays. -/
def outputs (config : Configuration) (c : Compilation) (units : List CompilationUnit) :
    Result (List OutputFile) := do
  let rendered ← units.mapM (unitOutputs config c)
  return (snapshot config c ++ rendered.flatten).foldl put []

/-- Writes one file. -/
def writeFile (tree : FileTree) (file : OutputFile) : Result FileTree :=
  match tree.write file.path (.text file.contents) with
  | .ok written => .ok written
  | .error fault => .error (.file file.path fault)

/-- Writes files one by one, also after one has failed; answers the first failure. -/
def writeAll (tree : FileTree) : List OutputFile → Result Unit × FileTree
  | [] => (.ok (), tree)
  | file :: rest =>
    match writeFile tree file with
    | .ok written => writeAll written rest
    | .error e => (.error e, (writeAll tree rest).2)

end SolidityBuild.Artifact
