import SolidityBuild.Dict
import SolidityBuild.Text.Scan

/-!
# Constant declarations

A build may give constants values of its own. The declarations `constant NAME = …;` of a given name
are replaced, where the present value ends at the first semicolon and does not cross a line. Names are
taken in order, each on the result of the ones before.
-/

namespace SolidityBuild.Source.Constant

open Text (Recogniser shorter?)

/-- The text in front of the value of a declaration. -/
def opening (name : String) : List Char := "constant ".toList ++ name.toList ++ " = ".toList

/-- The declaration of a value. -/
def declaration (name value : String) : List Char := opening name ++ value.toList ++ [';']

/-- The characters that end a value. -/
def endsValue (c : Char) : Bool := c = ';' || c = '\n'

/-- Recognises a declaration that starts with `opening`. -/
def declared (opening : List Char) : Recogniser Unit := fun cs => do
  match (← opening.isPrefixOf? cs).dropWhile (!endsValue ·) with
  | ';' :: rest => shorter? ((), rest)
  | _ => none

/-- A source with the declarations of one name replaced. -/
def setValue (name value : String) (source : List Char) : List Char :=
  Text.replaceAll (declared (opening name)) (declaration name value) source

/-- A source with the declarations of all given names replaced. -/
def substitute (constants : Dict String) (source : String) : String :=
  String.ofList (constants.toList.foldl (fun text (name, value) => setValue name value text) source.toList)

end SolidityBuild.Source.Constant
