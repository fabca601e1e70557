import SolidityBuild.Error
import SolidityBuild.FileTree.Walk
import SolidityBuild.Glob.Parser
import SolidityBuild.Path.Normal
import SolidityBuild.Text.Scan

/-!
# Discovery of files

Expands patterns into files. The components of a pattern up to the first one with a mark are a
directory, below which the rest is matched; a pattern without marks is one file.
-/

namespace SolidityBuild

namespace FileTree

/-- The canonical form of a path, or its lexical normal form where there is no such entry. -/
def absolute (tree : FileTree) (p : Path) : Path :=
  match tree.canonical p with
  | .ok canonical => canonical
  | .error _ =>
    if p.isAbsolute then p.normalized else (tree.workingDirectory.path.join p).normalized

/-- `absolute` for a path that is relative to a directory. -/
def absoluteFrom (tree : FileTree) (base p : Path) : Path := tree.absolute (base.join p)

end FileTree

namespace Discovery

/-- Whether a component of a pattern holds a mark. -/
def isMarked : Path.Component → Bool
  | .name text => text.toList.any fun c => c = '*' || c = '?' || c = '[' || c = '\x7b'
  | _ => false

/-- The directory in front of the first marked component, and the pattern from there on. -/
def split (pattern : Path) : Path × List Path.Component :=
  (.ofComponents (pattern.components.takeWhile (!isMarked ·)),
    pattern.components.dropWhile (!isMarked ·))

/-- The files that a pattern selects, in the order of a walk. -/
def select (tree : FileTree) (pattern : Path) : Result (List Path) :=
  match split pattern with
  | (literal, []) =>
    let file := tree.absolute literal
    .ok (if tree.isFile file then [file] else [])
  | (directory, marked) =>
    if tree.isDirectory directory then
      match Glob.parse (Path.ofComponents marked).text with
      | .error fault => .error (.configuration (.glob pattern fault.message))
      | .ok glob =>
        .ok <| (tree.filesBelow directory).filterMap fun names =>
          if Glob.matchesText glob ("/".intercalate names) then some (FileTree.extend directory names)
          else none
    else .ok []

/-- The pattern that a text spells: without any number of `./` at its front, and taken from a base
directory if it is relative. -/
def patternOf (base : Path) (text : String) : Path :=
  base.child (String.ofList (Text.dropAll (Text.word "./".toList) text.toList))

/-- The files that any of the patterns selects, each once, in the order of paths. -/
def discover (tree : FileTree) (base : Path) (patterns : List String) : Result (List Path) := do
  let selected ← patterns.mapM fun text => select tree (patternOf base text)
  return Path.ordered selected.flatten

end Discovery

end SolidityBuild
