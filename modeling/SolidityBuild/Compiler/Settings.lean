import SolidityBuild.Error

/-!
# Compiler settings

The settings block of a request. Settings given by the user are laid over the present ones as JSON
values: objects merge key by key, any other value replaces its counterpart, and the outcome has to be a
settings block again.
-/

namespace SolidityBuild

/-- The optimizer and how often it expects a contract to run. -/
structure OptimizerSettings where
  enabled : Bool
  runs : Nat
deriving DecidableEq

/-- The outputs that are asked for, by file and contract. -/
abbrev OutputSelection := Dict (Dict (List String))

/-- The settings block of a request. -/
structure CompilerSettings where
  remappings : List String
  optimizer : OptimizerSettings
  evmVersion : Option String
  outputSelection : OutputSelection
deriving DecidableEq

namespace CompilerSettings

/-- The outputs asked for every contract. -/
def contractOutputs : List String :=
  ["abi", "evm.bytecode.object", "evm.bytecode.sourceMap", "evm.deployedBytecode.object",
    "evm.deployedBytecode.sourceMap", "evm.methodIdentifiers", "metadata"]

/-- The selection of the usual outputs of all contracts of all files. -/
def defaultSelection : OutputSelection :=
  Dict.ofList [("*", Dict.ofList [("*", contractOutputs)])]

/-- The settings of a build that gives none. -/
def default : CompilerSettings := ⟨[], ⟨true, 200⟩, none, defaultSelection⟩

instance : Inhabited CompilerSettings := ⟨default⟩

/-! ## As JSON -/

def optimizerJson (optimizer : OptimizerSettings) : Json :=
  .object [("enabled", .bool optimizer.enabled), ("runs", .integer optimizer.runs)]

def selectionJson (selection : OutputSelection) : Json :=
  .ofDict (selection.mapValues fun contracts =>
    .ofDict (contracts.mapValues fun outputs => .array (outputs.map .string)))

/-- The settings block with its fields in the order of a request. Remappings and the version of the
virtual machine are only there if there are any. -/
def toJson (settings : CompilerSettings) : Json :=
  .object <|
    (if settings.remappings.isEmpty then []
      else [("remappings", .array (settings.remappings.map .string))]) ++
    [("optimizer", optimizerJson settings.optimizer)] ++
    (match settings.evmVersion with
      | some version => [("evmVersion", .string version)]
      | none => []) ++
    [("outputSelection", selectionJson settings.outputSelection)]

/-! ## From JSON -/

/-- The runs of an optimizer are smaller than this. -/
def runsLimit : Nat := Nat.pow 2 32

/-- What was read, or the complaint that something else was expected. -/
def expect {α : Type} (what : String) : Option α → Except String α
  | some value => .ok value
  | none => .error ("expected " ++ what)

/-- The value of a field that has to be there. -/
def readField (value : Json) (name : String) : Except String Json :=
  match value.get? name with
  | some found => .ok found
  | none => .error ("missing field " ++ name)

def readBool : Json → Except String Bool
  | .bool value => .ok value
  | _ => .error "expected a boolean"

def readTexts (value : Json) : Except String (List String) := do
  (← expect "a list" value.items?).mapM fun item => expect "a text" item.text?

def readRuns (value : Json) : Except String Nat := do
  let n ← expect "a natural number" value.natural?
  if n < runsLimit then return n else .error "number too large"

/-- An optional text; `null` stands for its absence. -/
def readOptionalText (value : Json) : Except String (Option String) :=
  expect "a text" (Diagnostic.optionalText? value)

def readOptimizer : Json → Except String OptimizerSettings
  | .array [enabled, runs] => return ⟨← readBool enabled, ← readRuns runs⟩
  | .object members => do
    let value := Json.object members
    return ⟨← readBool (← readField value "enabled"), ← readRuns (← readField value "runs")⟩
  | _ => .error "expected optimizer settings"

/-- The values of an object, each read by `read`. -/
def readDict {α : Type} (read : Json → Except String α) (value : Json) : Except String (Dict α) := do
  let entries ← (← expect "an object" value.members?).mapM fun (key, member) => do
    return (key, ← read member)
  return Dict.ofList entries

def readSelection : Json → Except String OutputSelection := readDict (readDict readTexts)

/-- Reads a settings block from an object, or from a list of its four fields. Fields that are not known
are passed over. -/
def ofJson : Json → Except String CompilerSettings
  | .array [remappings, optimizer, evmVersion, outputSelection] =>
    return ⟨← readTexts remappings, ← readOptimizer optimizer, ← readOptionalText evmVersion,
      ← readSelection outputSelection⟩
  | .object members => do
    let value := Json.object members
    let remappings ← match value.get? "remappings" with
      | some found => readTexts found
      | none => .ok []
    let evmVersion ← match value.get? "evmVersion" with
      | some found => readOptionalText found
      | none => .ok none
    return ⟨remappings, ← readOptimizer (← readField value "optimizer"), evmVersion,
      ← readSelection (← readField value "outputSelection")⟩
  | _ => .error "expected compiler settings"

/-! ## Layers -/

/-- Whether a selection asks for nothing: all its outputs are blank. -/
def asksForNothing (selection : OutputSelection) : Bool :=
  selection.values.all fun contracts =>
    contracts.values.all fun outputs => outputs.all Text.isBlankText

/-- The settings with the usual selection in place of one that asks for nothing. -/
def sanitized (settings : CompilerSettings) : CompilerSettings :=
  if asksForNothing settings.outputSelection then
    { settings with outputSelection := defaultSelection }
  else settings

/-- Lays a JSON value over the settings. -/
def overlay (settings : CompilerSettings) (above : Json) : Result CompilerSettings :=
  match ofJson (settings.toJson.canonical.overlay above) with
  | .ok merged => .ok merged.sanitized
  | .error reason => .error (.configuration (.settings reason))

def withRemappings (settings : CompilerSettings) (remappings : List String) : CompilerSettings :=
  { settings with remappings }

end CompilerSettings

end SolidityBuild
