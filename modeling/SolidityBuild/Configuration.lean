import SolidityBuild.Compiler.Settings
import SolidityBuild.Compiler.Version
import SolidityBuild.Discovery
import SolidityBuild.Json.Parser
import SolidityBuild.Json.Printer

/-!
# Configuration

Options come in layers, such as a file and a command line, where a later layer wins. The configuration
of a build is made from the defaults and the merged options. Constants are given in an object of their
own or, in older files, as keys of their own; where a name is in both, the object wins.
-/

namespace SolidityBuild

/-- One layer of options; what is `none` is left to the layers below. -/
structure Options where
  baseDirectory : Option Path
  input : Option (List String)
  outputJsDirectory : Option Path
  outputSolDirectory : Option Path
  artifactsDirectory : Option Path
  solcVersion : Option String
  solcPath : Option Path
  quiet : Option Bool
  verbose : Option Bool
  createDirectories : Option Bool
  constants : Option (Dict Json)
  settings : Option Json
  timeout : Option Nat
  /-- Keys that are not known. -/
  extra : Dict Json

/-- Everything that a build is told. -/
structure Configuration where
  baseDirectory : Path
  inputs : List String
  outputJsDirectory : Path
  outputSolDirectory : Path
  artifactsDirectory : Path
  solcVersion : Option Version
  solcPath : Path
  quiet : Bool
  verbose : Bool
  createDirectories : Bool
  constants : Dict String
  settings : CompilerSettings
  /-- The limit for the compiler, in seconds. -/
  timeout : Option Nat

namespace Options

/-- The layer that leaves everything open. -/
def empty : Options :=
  ⟨none, none, none, none, none, none, none, none, none, none, none, none, none, Dict.empty⟩

/-! ## Reading -/

/-- The keys that have a meaning. -/
def knownKeys : List String :=
  ["baseDir", "input", "outputJsDir", "outputSolDir", "artifactsDir", "solcVersion", "solcPath", "quiet",
    "verbose", "createdir", "constants", "settings", "timeoutSecs"]

/-- Reads an optional value; a missing key and `null` leave it open. -/
def optional? {α : Type} (read : Json → Option α) (members : List (String × Json)) (key : String) :
    Option (Option α) :=
  match Entries.find? key members with
  | none => some none
  | some .null => some none
  | some value => (read value).map some

def bool? : Json → Option Bool
  | .bool value => some value
  | _ => none

/-- One pattern or a list of them. -/
def patterns? : Json → Option (List String)
  | .string pattern => some [pattern]
  | .array items => items.mapM Json.text?
  | _ => none

def path? (value : Json) : Option Path := value.text?.map Path.ofText

/-- Reads a layer from an object. -/
def ofJson? : Json → Option Options
  | .object members => do
    return {
      baseDirectory := ← optional? path? members "baseDir"
      input := ← optional? patterns? members "input"
      outputJsDirectory := ← optional? path? members "outputJsDir"
      outputSolDirectory := ← optional? path? members "outputSolDir"
      artifactsDirectory := ← optional? path? members "artifactsDir"
      solcVersion := ← optional? Json.text? members "solcVersion"
      solcPath := ← optional? path? members "solcPath"
      quiet := ← optional? bool? members "quiet"
      verbose := ← optional? bool? members "verbose"
      createDirectories := ← optional? bool? members "createdir"
      constants := ← optional? (fun value => value.members?.map Dict.ofList) members "constants"
      settings := ← optional? some members "settings"
      timeout := ← optional? Json.natural? members "timeoutSecs"
      extra := Dict.ofList (members.filter fun member => !knownKeys.contains member.1) }
  | _ => none

/-- Whether an object gives a known key more than once. -/
def repeatsKey (members : List (String × Json)) : Bool :=
  knownKeys.any fun key => 1 < (members.filter fun member => member.1 = key).length

/-- Reads a layer from the text of a file. -/
def parse? (text : String) : Option Options := do
  let written ← Json.parseAsWritten? text
  if repeatsKey (← written.members?) then none else ofJson? written.canonical

/-- Reads a layer from a file; a file that is not there gives none. -/
def ofFile (tree : FileTree) (p : Path) : Result (Option Options) :=
  if !tree.isPresent p then .ok none
  else
    match tree.readText p with
    | .error fault => .error (.file p fault)
    | .ok text =>
      match parse? text with
      | some options => .ok (some options)
      | none => .error (.configuration (.file p "not an object of options"))

/-! ## Layers -/

/-- Both of two optional values combined, or the one that is there. -/
def combine {α : Type} (f : α → α → α) : Option α → Option α → Option α
  | some a, some b => some (f a b)
  | a, none => a
  | none, b => b

/-- Lays one layer over another. -/
def mergedWith (options above : Options) : Options where
  baseDirectory := above.baseDirectory <|> options.baseDirectory
  input := above.input <|> options.input
  outputJsDirectory := above.outputJsDirectory <|> options.outputJsDirectory
  outputSolDirectory := above.outputSolDirectory <|> options.outputSolDirectory
  artifactsDirectory := above.artifactsDirectory <|> options.artifactsDirectory
  solcVersion := above.solcVersion <|> options.solcVersion
  solcPath := above.solcPath <|> options.solcPath
  quiet := above.quiet <|> options.quiet
  verbose := above.verbose <|> options.verbose
  createDirectories := above.createDirectories <|> options.createDirectories
  constants := combine Dict.union options.constants above.constants
  settings := combine Json.overlay options.settings above.settings
  timeout := above.timeout <|> options.timeout
  extra := options.extra.union above.extra

end Options

/-- The text that a constant is given: that of a string as it is, and the JSON text of other values. -/
def constantText : Json → String
  | .string text => text
  | other => other.compact

namespace Configuration

/-- The configuration with defaults for a base directory. -/
def withBase (tree : FileTree) (base : Path) : Configuration :=
  let base := tree.absolute base
  let output := base.child "build"
  { baseDirectory := base
    inputs := ["contracts/*.sol"]
    outputJsDirectory := output
    outputSolDirectory := output
    artifactsDirectory := output.child "artifacts"
    solcVersion := none
    solcPath := .ofText "solc"
    quiet := false
    verbose := false
    createDirectories := true
    constants := Dict.empty
    settings := CompilerSettings.default
    timeout := none }

/-- The patterns that options name, of which there has to be one. -/
def chosenInputs (config : Configuration) (options : Options) : Result (List String) :=
  match options.input with
  | none => .ok config.inputs
  | some [] => .error (.configuration .noInput)
  | some patterns => .ok patterns

/-- The compiler version that options name. -/
def chosenVersion (config : Configuration) (options : Options) : Result (Option Version) :=
  match options.solcVersion with
  | none => .ok config.solcVersion
  | some text =>
    match Version.ofRequest? text with
    | some version => .ok (some version)
    | none => .error (.configuration (.version text "not a semantic version"))

/-- The settings with those of options laid over them. -/
def chosenSettings (config : Configuration) (options : Options) : Result CompilerSettings :=
  match options.settings with
  | none => .ok config.settings
  | some above => config.settings.overlay above

/-- Whether a value may be a constant: lists and objects may not. -/
def isScalar : Json → Bool
  | .array _ => false
  | .object _ => false
  | _ => true

/-- The constants with those of options over them: first those given as keys of their own, then those of
the object. -/
def chosenConstants (config : Configuration) (options : Options) : Dict String :=
  let keys := options.extra.toList.filter fun entry => isScalar entry.2
  let named := match options.constants with
    | some constants => constants.toList
    | none => []
  (keys ++ named).foldl (fun constants (name, value) => constants.insert name (constantText value))
    config.constants

/-- The configuration with options laid over it. The artifacts go below the modules unless they have a
directory of their own. -/
def mergeOptions (tree : FileTree) (config : Configuration) (options : Options) : Result Configuration := do
  let directory (p : Path) : Path := tree.absoluteFrom config.baseDirectory p
  let inputs ← config.chosenInputs options
  let solcVersion ← config.chosenVersion options
  let settings ← config.chosenSettings options
  let outputJsDirectory := (options.outputJsDirectory.map directory).getD config.outputJsDirectory
  let artifactsDirectory := match options.artifactsDirectory, options.outputJsDirectory with
    | some own, _ => directory own
    | none, some _ => outputJsDirectory.child "artifacts"
    | none, none => config.artifactsDirectory
  return { config with
    inputs, solcVersion, settings, outputJsDirectory, artifactsDirectory
    outputSolDirectory := (options.outputSolDirectory.map directory).getD config.outputSolDirectory
    solcPath := options.solcPath.getD config.solcPath
    quiet := options.quiet.getD config.quiet
    verbose := options.verbose.getD config.verbose
    createDirectories := options.createDirectories.getD config.createDirectories
    constants := config.chosenConstants options
    timeout := options.timeout <|> config.timeout }

/-- The base directory of a project: the nearest directory above the given one that has a
`package.json`, or the given one. -/
def projectDirectory (tree : FileTree) (start : Path) : Path :=
  let start := tree.absolute start
  (start.ancestors.find? fun directory => tree.isFile (directory.child "package.json")).getD start

/-- The configuration that options make. -/
def ofOptions (tree : FileTree) (options : Options) : Result Configuration :=
  let base := match options.baseDirectory with
    | some directory => tree.absolute directory
    | none => projectDirectory tree tree.workingDirectory.path
  mergeOptions tree (withBase tree base) options

end Configuration

end SolidityBuild
