import SolidityBuild.Dict
import SolidityBuild.Discovery

/-!
# Vendored packages

A project may carry packages of its own as `lib/<package>/src/<file>.sol`, and a package its own in
turn, so that one package can be there at several depths. A file is imported as `<package>/<file>`, and
the file `index.sol` as `<package>`. Of several files with one name the one with the fewest components
counts, and of those the first.
-/

namespace SolidityBuild.Source

/-- The file of a package that is imported by the name of the package alone. -/
def packageIndex : String := "index.sol"

/-- How a component of a path shows in the name of a package. -/
def componentName : Path.Component → String
  | .root => "/"
  | component => component.segment

/-- The name under which a vendored file is imported, told by the last three components. -/
def vendoredName? (file : Path) : Option String :=
  match file.components.reverse with
  | file :: _ :: package :: _ =>
    let package := componentName package
    let file := componentName file
    some (if file = packageIndex then package else package ++ "/" ++ file)
  | _ => none

/-- The number of components of a path. -/
def depth (file : Path) : Nat := file.components.length

/-- Adds a file to an index unless the index has one of its name that is not deeper. -/
def addVendored (index : Dict Path) (file : Path) : Dict Path :=
  match vendoredName? file with
  | none => index
  | some name =>
    match index.get? name with
    | none => index.insert name file
    | some present => if depth present ≤ depth file then index else index.insert name file

/-- The index of the given files by their names. -/
def vendoredIndex (files : List Path) : Dict Path := files.foldl addVendored Dict.empty

/-- The pattern of the vendored files of a project. -/
def vendoredPattern (base : Path) : Path := (((base.child "lib").child "**").child "src").child "*.sol"

/-- The index of the vendored files of a project; nothing if the name of the base directory makes the
pattern malformed. -/
def vendored (tree : FileTree) (base : Path) : Dict Path :=
  match Discovery.select tree (vendoredPattern base) with
  | .ok files => vendoredIndex files
  | .error _ => Dict.empty

end SolidityBuild.Source
