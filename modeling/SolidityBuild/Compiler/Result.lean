import SolidityBuild.Error
import SolidityBuild.Json.Parser

/-!
# Results of the compiler

The answer of the compiler in its standard format: diagnostics, contracts by source name and contract
name, and the number of every source. Parts that are not as expected are passed over, except the
diagnostics, which have to be well formed.
-/

namespace SolidityBuild

/-- What the compiler says about one contract. -/
structure ContractOutput where
  raw : Json

namespace ContractOutput

/-- The interface of the contract; an empty list if there is none. -/
def interface (output : ContractOutput) : Json := (output.raw.get? "abi").getD (.array [])

/-- A hexadecimal text with `0x` in front. -/
def prefixed (digits : String) : String :=
  if "0x".toList.isPrefixOf digits.toList then digits else "0x" ++ digits

/-- The hexadecimal text of an object of the virtual machine. -/
def object (output : ContractOutput) (kind : String) : String :=
  prefixed (((output.raw.at? ["evm", kind, "object"]).bind Json.text?).getD "")

/-- The code that creates the contract. -/
def bytecode (output : ContractOutput) : String := output.object "bytecode"

/-- The code of the contract once it is there. -/
def deployedBytecode (output : ContractOutput) : String := output.object "deployedBytecode"

/-- A contract without its assembly listings, which only serve debugging. -/
def withoutListings (raw : Json) : Json :=
  raw.modify "evm" fun machine => (machine.erase "assembly").erase "legacyAssembly"

/-- The output without assembly listings. -/
def stripped (output : ContractOutput) : Json := withoutListings output.raw

end ContractOutput

/-- The answer of the compiler. -/
structure CompilerResult where
  diagnostics : List Diagnostic
  contracts : Dict (Dict ContractOutput)
  sourceIds : Dict Nat
  raw : Json

namespace CompilerResult

/-- The diagnostics of an answer. -/
def diagnosticsOf (raw : Json) : Result (List Diagnostic) :=
  match raw.get? "errors" with
  | none => .ok []
  | some reported =>
    match reported.items?.bind fun items => items.mapM Diagnostic.ofJson? with
    | some diagnostics => .ok diagnostics
    | none => .error (.compiler "Failed to parse solc diagnostics" "not a list of diagnostics")

/-- The values of an object under a key that `read` accepts; nothing if there is no such object. -/
def membersOf {α : Type} (raw : Json) (key : String) (read : Json → Option α) : Dict α :=
  match (raw.get? key).bind Json.members? with
  | none => Dict.empty
  | some members => Dict.ofList (members.filterMap fun (name, value) => (read value).map fun a => (name, a))

/-- The contracts of one source. -/
def contractsOf (file : Json) : Option (Dict ContractOutput) :=
  file.members?.map fun members => Dict.ofList (members.map fun (name, raw) => (name, ⟨raw⟩))

/-- Source numbers keep their lowest 32 bits. -/
def idLimit : Nat := Nat.pow 2 32

/-- The number of a source. -/
def idOf (source : Json) : Option Nat := ((source.get? "id").bind Json.natural?).map (· % idLimit)

/-- Reads the answer of the compiler. -/
def ofJson (raw : Json) : Result CompilerResult := do
  let diagnostics ← diagnosticsOf raw
  return { diagnostics, contracts := membersOf raw "contracts" contractsOf,
           sourceIds := membersOf raw "sources" idOf, raw }

def hasErrors (result : CompilerResult) : Bool := result.diagnostics.any Diagnostic.isError

/-- The diagnostics that are not errors. -/
def warnings (result : CompilerResult) : List Diagnostic := result.diagnostics.filter (!·.isError)

/-- The contracts of a source in order of their names. -/
def contractsIn (result : CompilerResult) (source : String) : List (String × ContractOutput) :=
  match result.contracts.get? source with
  | some contracts => contracts.toList
  | none => []

/-- The answer without assembly listings. -/
def stripped (result : CompilerResult) : Json :=
  result.raw.modify "contracts" fun files =>
    files.mapMembers fun file => file.mapMembers ContractOutput.withoutListings

end CompilerResult

end SolidityBuild
