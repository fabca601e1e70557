import SolidityBuild.Json.Basic
import SolidityBuild.Text.Blank

/-!
# Diagnostics of the compiler
-/

namespace SolidityBuild

/-- How grave a diagnostic is. Only errors make a result unusable. -/
inductive Severity where
  | error
  | warning
  | info
deriving DecidableEq

/-- A message of the compiler. -/
structure Diagnostic where
  severity : Severity
  message : String
  formatted : Option String
  kind : String
deriving DecidableEq

namespace Severity

/-- The name of a severity. -/
def name : Severity → String
  | .error => "error"
  | .warning => "warning"
  | .info => "info"

/-- The severity that a label names, in whatever case; labels that are not known only inform. -/
def ofLabel (label : String) : Severity :=
  let lower := label.toList.map Char.toLower
  if lower = "error".toList then .error
  else if lower = "warning".toList then .warning
  else .info

end Severity

namespace Diagnostic

def isError (d : Diagnostic) : Bool := d.severity = .error

/-- How a diagnostic is shown: the compiler's own wording without white space at its end, or else its
kind and message. -/
def text (d : Diagnostic) : String :=
  match d.formatted with
  | some formatted => Text.trimmedEnd formatted
  | none => d.kind ++ ": " ++ d.message

/-- An optional text; `null` stands for its absence. -/
def optionalText? : Json → Option (Option String)
  | .null => some none
  | .string text => some (some text)
  | _ => none

/-- A text under a key that may be missing. -/
def textField? (value : Json) (key : String) : Option String :=
  match value.get? key with
  | none => some ""
  | some field => field.text?

/-- Reads a diagnostic from an object, or from a list of its severity, message, wording and kind, of
which the last may be missing. -/
def ofJson? : Json → Option Diagnostic
  | .array (severity :: message :: formatted :: tail) => do
    let kind ← match tail with
      | [] => some ""
      | [kind] => kind.text?
      | _ => none
    return ⟨.ofLabel (← severity.text?), ← message.text?, ← optionalText? formatted, kind⟩
  | .object members => do
    let value := Json.object members
    let formatted ← match value.get? "formattedMessage" with
      | none => some none
      | some field => optionalText? field
    return ⟨.ofLabel (← textField? value "severity"), ← textField? value "message", formatted,
      ← textField? value "type"⟩
  | _ => none

end Diagnostic

end SolidityBuild
