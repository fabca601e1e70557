import SolidityBuild.FileTree.Basic
import SolidityBuild.Json.Parser

/-!
# Installed packages

Finds what a name refers to in the `node_modules` directories of a project: in the base directory first
and then in those above it. A path is tried as a file, with and without an extension, and then as a
directory, whose `package.json` may name a main file and which may have an index file.
-/

namespace SolidityBuild.Source.Package

/-- Names that belong to the runtime and are never looked up in a directory of packages. -/
def builtins : List String :=
  ["assert", "buffer", "child_process", "cluster", "console", "constants", "crypto", "dgram", "dns",
    "domain", "events", "fs", "http", "https", "module", "net", "os", "path", "process", "punycode",
    "querystring", "readline", "repl", "stream", "string_decoder", "timers", "tls", "tty", "url",
    "util", "v8", "vm", "zlib"]

/-- The extensions that may be left out. -/
def extensions : List String := [".js", ".json", ".node"]

/-- A path with a text added to its end. -/
def withSuffix (p : Path) (suffix : String) : Path := .ofText (p.text ++ suffix)

/-- The file at a path, or at the path with an extension. -/
def asFile? (tree : FileTree) (p : Path) : Option Path :=
  (p :: extensions.map (withSuffix p)).find? tree.isFile

/-- The main file that the `package.json` of a directory names. -/
def main? (tree : FileTree) (directory : Path) : Option String := do
  let text ← (tree.readText (directory.child "package.json")).toOption
  (← (← Json.parse? text).get? "main").text?

/-- The index file of a directory. -/
def index? (tree : FileTree) (directory : Path) : Option Path :=
  (extensions.map fun extension => directory.child ("index" ++ extension)).find? tree.isFile

/-- The file that a directory stands for: its main file, which may again be a directory, or its index
file. The lookup is presupposed to end. That no main file is looked for behind `hops` directories is no
rule of it, and cuts off only main files that lead from directory to directory in a circle. -/
def asDirectory? (tree : FileTree) : (hops : Nat) → Path → Option Path
  | 0, directory => index? tree directory
  | hops + 1, directory =>
    let main := do
      let target := ((directory.child "package.json").parent?.getD ⟨["", ""]⟩).child (← main? tree directory)
      asFile? tree target <|> (if tree.isDirectory target then asDirectory? tree hops target else none)
    main <|> index? tree directory

/-- The file that a path refers to. -/
def load? (tree : FileTree) (p : Path) : Option Path :=
  asFile? tree p <|>
    if tree.isDirectory p then asDirectory? tree tree.nodes.length p else none

/-- The file that a name refers to in the directory of packages of one directory. -/
def inDirectory? (tree : FileTree) (reference : String) (directory : Path) : Option Path :=
  let packages := directory.child "node_modules"
  if tree.isDirectory packages then load? tree (packages.child reference) else none

/-- The file that a reference leads to from a directory. -/
def resolve? (tree : FileTree) (base : Path) (reference : String) : Option Path :=
  let found :=
    if builtins.contains reference then some (.ofText reference)
    else
      let target :=
        if (Path.ofText reference).isAbsolute then load? tree (.ofText reference)
        else base.ancestors.findSome? (inDirectory? tree reference)
      target.bind fun p => (tree.canonical p).toOption
  found.filter tree.isFile

end SolidityBuild.Source.Package
