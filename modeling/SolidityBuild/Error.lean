import SolidityBuild.Compiler.Diagnostic
import SolidityBuild.FileTree.Basic

/-!
# Errors of a build

Every error is a cause with the values that tell it apart; its wording is in `Error.message`.
-/

namespace SolidityBuild

/-- What is wrong with a configuration. A `reason` is the wording of the reader that refused a text. -/
inductive ConfigurationFault where
  | noInput
  | version (text reason : String)
  | glob (pattern : Path) (reason : String)
  | file (path : Path) (reason : String)
  | settings (reason : String)
  | notDirectory (path : Path)
  | missingDirectory (path : Path)
deriving DecidableEq

/-- Why a build failed. -/
inductive Error where
  /-- No search root has the reference. -/
  | sourceNotFound (reference : String) (importer : Option Path) (searched : List Path)
  /-- A file imports itself through the files listed. -/
  | cyclicImport (cycle : List Path)
  /-- The compiler reported errors. -/
  | diagnostics (reported : List Diagnostic)
  /-- The compiler took longer than the limit, in seconds. -/
  | timeout (limit : Nat)
  /-- The compiler could not be run or its answer not be read. -/
  | compiler (context message : String)
  /-- There is no manifest at a path. -/
  | manifest (path : Path) (reason : String)
  /-- A file or directory could not be used. -/
  | file (path : Path) (fault : Fault)
  | configuration (fault : ConfigurationFault)
deriving DecidableEq

/-- The results of operations that may fail. -/
abbrev Result := Except Error

def ConfigurationFault.message : ConfigurationFault → String
  | .noInput => "No input files"
  | .version text reason => "Failed to parse solc version \"" ++ text ++ "\": " ++ reason
  | .glob pattern reason => "Invalid glob " ++ pattern.text ++ ": " ++ reason
  | .file path reason => "Invalid config file " ++ path.text ++ ": " ++ reason
  | .settings reason => "Failed to parse compiler settings: " ++ reason
  | .notDirectory path => path.text ++ " is not a directory"
  | .missingDirectory path => path.text ++ " does not exist"

namespace Error

/-- A number of whole seconds with its unit. -/
def seconds (n : Nat) : String := if n = 0 then "0ns" else toString n ++ "s"

def paths (separator : String) (ps : List Path) : String := separator.intercalate (ps.map Path.text)

/-- The wording of an error. -/
def message : Error → String
  | .sourceNotFound reference importer searched =>
    let suffix := match importer with
      | some path => " imported from " ++ path.text
      | none => ""
    "Unable to resolve \"" ++ reference ++ "\"" ++ suffix ++ "; looked in: " ++ paths ", " searched
  | .cyclicImport cycle => "Cyclic import detected: " ++ paths " -> " cycle
  | .diagnostics reported => "Compiler errors!\n" ++ "\n".intercalate (reported.map Diagnostic.text)
  | .timeout limit => "solc did not finish within " ++ seconds limit
  | .compiler context message => context ++ ": " ++ message
  | .manifest path reason => "Unable to read build manifest " ++ path.text ++ ": " ++ reason
  | .file path fault => "Filesystem error at " ++ path.text ++ ": " ++ fault.message
  | .configuration fault => "Invalid configuration: " ++ fault.message

end Error

end SolidityBuild
