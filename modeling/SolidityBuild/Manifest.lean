import SolidityBuild.Error
import SolidityBuild.Json.Parser
import SolidityBuild.Text.Blank

/-!
# Build manifests

The export module of a unit ends with the hash of every file of the unit and the release of the
compiler. Those lines are the manifest of the build: reading them back tells whether a later build may
skip the unit.
-/

namespace SolidityBuild

/-- The hashes and the compiler release that a build recorded. -/
structure Manifest where
  hashes : Dict String
  release : Option String
deriving DecidableEq

namespace Manifest

open Text (Recogniser shorter?)

/-- The name under which a module exports the release of the compiler. -/
def releaseExport : String := "_solcVersion"

/-- The name under which a module exports the hash of the file with the given key. -/
def hashExport (key : String) : String := "_" ++ key ++ "_sha256"

/-- The key of the file whose hash is exported under a name. -/
def hashKey? (name : String) : Option String := do
  let key ← "_".toList.isPrefixOf? name.toList
  let suffix := "_sha256".toList
  if suffix.isSuffixOf key then some (String.ofList (key.take (key.length - suffix.length))) else none

/-! ## Lines of a module -/

/-- The rest of a quoted literal, its closing mark included, and the text after it. A backslash takes
the next character with it, which must not be a line feed. -/
def literalBody : List Char → Option (List Char × List Char)
  | [] => none
  | '"' :: rest => some (['"'], rest)
  | '\\' :: c :: rest =>
    if c = '\n' then none
    else (literalBody rest).map fun (body, after) => ('\\' :: c :: body, after)
  | c :: rest =>
    if c = '\\' then none else (literalBody rest).map fun (body, after) => (c :: body, after)

/-- The quoted literal at the front of a text, with its marks. -/
def literal? : List Char → Option (List Char × List Char)
  | '"' :: rest => (literalBody rest).map fun (body, after) => ('"' :: body, after)
  | _ => none

/-- The literal that a text assigns: an equals sign with white space around it, then the literal. -/
def assigned? (cs : List Char) : Option (List Char × List Char) :=
  match cs.dropWhile Text.isBlank with
  | '=' :: rest => literal? (rest.dropWhile Text.isBlank)
  | _ => none

/-- A line `exports["name"] = "value"`. -/
def entryLine : Recogniser (List Char × List Char) := fun cs => do
  let (name, afterName) ← literal? (← "exports[".toList.isPrefixOf? cs)
  match afterName with
  | ']' :: rest =>
    let (value, after) ← assigned? rest
    shorter? ((name, value), after)
  | _ => none

/-- A line `exports._solcVersion = "value"`. -/
def releaseLine : Recogniser (List Char) := fun cs => do
  shorter? (← assigned? (← ("exports." ++ releaseExport).toList.isPrefixOf? cs))

/-- The key and the hash of an entry, if both literals are well formed and the name is that of a
hash. -/
def entry? (line : List Char × List Char) : Option (String × String) := do
  return (← hashKey? (← Json.unquote? line.1), ← Json.unquote? line.2)

/-- Reads the manifest in the text of a module. Of several hashes of one file the last counts, of
several releases the first. -/
def parse (text : String) : Manifest where
  hashes := Dict.ofList ((Text.found (Text.atLineStarts entryLine text.toList)).filterMap entry?)
  release := (Text.found (Text.atLineStarts releaseLine text.toList)).head?.bind Json.unquote?

/-- Whether nothing was recorded. -/
def isEmpty (manifest : Manifest) : Bool := manifest.hashes.isEmpty && manifest.release.isNone

/-- Reads the manifest in the module at a path. -/
def load (tree : FileTree) (p : Path) : Result Manifest :=
  match tree.readText p with
  | .error fault => .error (.manifest p fault.message)
  | .ok text =>
    let manifest := parse text
    if manifest.isEmpty then .error (.manifest p "no build metadata found") else .ok manifest

/-- The manifest in the module at a path; one that cannot be read counts as missing. -/
def read? (tree : FileTree) (p : Path) : Option Manifest := (load tree p).toOption

/-! ## Staleness -/

/-- Whether a unit has to be compiled again: there is no manifest, or the release differs, or the
recorded hashes are not those of the same files with the same content. -/
def isStale (manifest : Option Manifest) (current : Dict String) (release : String) : Bool :=
  match manifest with
  | none => true
  | some manifest =>
    manifest.release != some release || manifest.hashes.size != current.size ||
      current.toList.any fun (key, hash) => manifest.hashes.get? key != some hash

end Manifest

end SolidityBuild
