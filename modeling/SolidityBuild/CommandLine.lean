import SolidityBuild.Configuration

/-!
# Command lines

The flags of a command line are a layer of options over those of the configuration file, which is named
by a flag too. A flag takes the words behind it up to the next flag as its values; the value of a long
flag may also be joined to it by an equals sign.
-/

namespace SolidityBuild

/-- What a command line says. -/
structure CommandLine where
  configFile : Option Path
  options : Options

namespace CommandLine

/-- Why words are not a command line. -/
inductive Fault where
  | unexpected (word : String)
  | repeated (flag : String)
  | values (flag : String)
  | quietAndVerbose
deriving DecidableEq

def Fault.message : Fault → String
  | .unexpected word => "unexpected argument '" ++ word ++ "' found"
  | .repeated flag => "the argument '" ++ flag ++ "' cannot be used multiple times"
  | .values flag => "wrong number of values for '" ++ flag ++ "'"
  | .quietAndVerbose => "the argument '--quiet' cannot be used with '--verbose'"

/-- The command line without words. -/
def empty : CommandLine := ⟨none, .empty⟩

/-! ## Words -/

/-- A flag, with the value joined to it if it is a long one. A single dash is no flag. -/
def flag? (word : String) : Option (String × List String) :=
  match word.toList with
  | '-' :: '-' :: _ =>
    match word.toList.dropWhile (· ≠ '=') with
    | _ :: value => some (String.ofList (word.toList.takeWhile (· ≠ '=')), [String.ofList value])
    | [] => some (word, [])
  | '-' :: _ :: _ => some (word, [])
  | _ => none

/-- The words in front of the first flag, and every flag with its values. -/
def grouped : List String → List String × List (String × List String)
  | [] => ([], [])
  | word :: rest =>
    let (values, groups) := grouped rest
    match flag? word with
    | some (flag, joined) => ([], (flag, joined ++ values) :: groups)
    | none => (word :: values, groups)

/-! ## Flags -/

/-- The single value of a flag that may be given once. -/
def single {α : Type} (flag : String) (present : Option α) (read : String → α) :
    List String → Except Fault (Option α)
  | [value] => if present.isSome then .error (.repeated flag) else .ok (some (read value))
  | _ => .error (.values flag)

/-- A switch, which has no value. -/
def switch (flag : String) (present : Option Bool) (setting : Bool) :
    List String → Except Fault (Option Bool)
  | [] => if present = some setting then .error (.repeated flag) else .ok (some setting)
  | value :: _ => .error (.unexpected value)

/-- Adds what a flag says. Of the two switches for missing directories the last one counts. -/
def add (line : CommandLine) (group : String × List String) : Except Fault CommandLine := do
  let (flag, values) := group
  let options := line.options
  match flag with
  | "-c" | "--config-file" =>
    return { line with configFile := ← single flag line.configFile .ofText values }
  | "--output-js-dir" =>
    let outputJsDirectory ← single flag options.outputJsDirectory .ofText values
    return { line with options := { options with outputJsDirectory } }
  | "--output-sol-dir" =>
    let outputSolDirectory ← single flag options.outputSolDirectory .ofText values
    return { line with options := { options with outputSolDirectory } }
  | "--solc-version" =>
    let solcVersion ← single flag options.solcVersion id values
    return { line with options := { options with solcVersion } }
  | "-i" | "--input" =>
    if values.isEmpty then .error (.values flag)
    else return { line with options := { options with input := some (options.input.getD [] ++ values) } }
  | "--createdir" =>
    let createDirectories ← switch flag options.createDirectories true values
    return { line with options := { options with createDirectories } }
  | "--no-createdir" =>
    let createDirectories ← switch flag options.createDirectories false values
    return { line with options := { options with createDirectories } }
  | "-q" | "--quiet" =>
    let quiet ← switch flag options.quiet true values
    return { line with options := { options with quiet } }
  | "-v" | "--verbose" =>
    let verbose ← switch flag options.verbose true values
    return { line with options := { options with verbose } }
  | _ => .error (.unexpected flag)

/-- Reads the words of a command line. -/
def parse (words : List String) : Except Fault CommandLine := do
  match grouped words with
  | (word :: _, _) => .error (.unexpected word)
  | ([], groups) =>
    let line ← groups.foldlM add empty
    if line.options.quiet.isSome && line.options.verbose.isSome then .error .quietAndVerbose
    else return line

/-- The configuration that a command line makes: its options over those of the file it names. -/
def configuration (tree : FileTree) (line : CommandLine) : Result Configuration := do
  let file ← match line.configFile with
    | some p => Options.ofFile tree p
    | none => .ok none
  Configuration.ofOptions tree ((file.getD .empty).mergedWith line.options)

end CommandLine

end SolidityBuild
