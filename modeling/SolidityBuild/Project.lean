import SolidityBuild.Build
import SolidityBuild.CommandLine

/-!
# Projects as documents

A project can be given as one JSON document: the working directory, the text of every file, and the
compiler with its version and, once it was asked, its answer. A build of such a project yields the
request to the compiler as long as there is no answer, and the files that it writes when there is one.
-/

namespace SolidityBuild

/-- A project and the compiler for it. -/
structure Project where
  tree : FileTree
  compiler : Version
  answer : Option Json

namespace Project

/-- A tree with one more file, and with the directories above it. -/
def withFile (tree : FileTree) (p : Path) (text : String) : Option FileTree :=
  let (made, tree) := match p.parent? with
    | some directory => tree.makeDirectories directory
    | none => (.ok (), tree)
  made.toOption.bind fun _ => (tree.write p (.text text)).toOption

/-- A tree with a working directory. -/
def withDirectory (tree : FileTree) (p : Path) : Option FileTree :=
  let (_, tree) := tree.makeDirectories p
  (tree.locate p).toOption.map fun location => { tree with workingDirectory := location }

/-- The tree of a document. -/
def treeOf (document : Json) : Option FileTree := do
  let files ← (← document.get? "files").members?
  let tree ← files.foldlM (fun tree (p, value) => do withFile tree (.ofText p) (← value.text?)) .empty
  match document.get? "directory" with
  | some directory => withDirectory tree (.ofText (← directory.text?))
  | none => return tree

/-- Reads a document. Without a compiler the default release is assumed, and no answer. -/
def ofText? (text : String) : Option Project := do
  let document ← Json.parse? text
  let tree ← treeOf document
  match document.get? "compiler" with
  | none => return ⟨tree, Version.default, none⟩
  | some compiler =>
    let version ← Version.ofRequest? (← (← compiler.get? "version").text?)
    return ⟨tree, version, compiler.get? "answer"⟩

/-- The request for the stale files that the patterns select, if there are any. -/
def request (project : Project) (config : Configuration) : Result (Option CompilerRequest) := do
  let files ← Discovery.discover project.tree config.baseDirectory config.inputs
  let plan ← Build.plan project.tree config project.compiler.release.text files
  if plan.batch.units.isEmpty then return none
  else return some (← plan.batch.request plan.workspace.store config.settings).1

/-- The toolchain that gives an answer to whatever request. -/
def answering (project : Project) (answer : Json) : Toolchain where
  name := Executable.name
  version := project.compiler
  run _ := ⟨0, CompilerResult.ofJson answer⟩

/-- The texts of the files that are new or different in a tree. -/
def changes (before after : FileTree) : Dict Json :=
  Dict.ofList <| after.nodes.filterMap fun (location, node) =>
    match node with
    | .file (.text text) =>
      if before.node? location = some node then none else some (location.path.text, .string text)
    | _ => none

/-- Builds a project: answers the request, or nothing where no file is stale, or the files to write. -/
def build (project : Project) (line : CommandLine) : Result Json := do
  let config ← line.configuration project.tree
  match project.answer with
  | none => return ((← project.request config).map CompilerRequest.toJson).getD .null
  | some answer =>
    let outcome := Build.compile project.tree config (project.answering answer)
    let _ ← outcome.result
    return .ofDict (changes project.tree outcome.tree)

end Project

end SolidityBuild
