import SolidityBuild.Digest.Sha256
import SolidityBuild.Source.Constant
import SolidityBuild.Source.Import
import SolidityBuild.Source.Package
import SolidityBuild.Source.Vendored

/-!
# Loaded sources

A store holds the sources of one build, each file once, under its canonical path and with constants
substituted. An import reference is looked for, in this order:

1. at the reference itself, from the importing directory if it starts with `./` or `../` and from the
   base directory otherwise;
2. in `contracts` below the base directory;
3. in `src` below the base directory;
4. among the installed packages, if it is not relative;
5. among the vendored packages, if it is not relative.

What a reference led to is remembered and not looked for again.
-/

namespace SolidityBuild

/-- Whether a file was selected for the build or is only imported. -/
inductive Role where
  | primary
  | dependency
deriving DecidableEq

/-- A loaded file. -/
structure SourceUnit where
  path : Path
  content : String
  role : Role
deriving DecidableEq

namespace SourceUnit

def isPrimary (unit : SourceUnit) : Bool := unit.role = .primary

/-- The SHA-256 of the content. -/
def hash (unit : SourceUnit) : String := Digest.Sha256.hexDigest unit.content

end SourceUnit

/-- The sources of a build in the order in which they were loaded. -/
structure SourceStore where
  base : Path
  constants : Dict String
  units : List SourceUnit
  /-- Where the references looked up so far led to, by their request keys. -/
  aliases : Dict Path
  /-- The vendored packages, once they were needed. -/
  vendored : Option (Dict Path)

namespace SourceStore

/-- The store without sources. -/
def new (base : Path) (constants : Dict String) : SourceStore := ⟨base, constants, [], Dict.empty, none⟩

/-- The unit stored under a path. -/
def get? (store : SourceStore) (p : Path) : Option SourceUnit := store.units.find? (·.path.same p)

/-- The unit stored under a path, or the error that there is none. -/
def unit (store : SourceStore) (p : Path) : Result SourceUnit :=
  match store.get? p with
  | some unit => .ok unit
  | none => .error (.sourceNotFound p.text none [p])

/-! ## Loading -/

/-- Makes the unit of a path a primary one if `role` says so; a primary unit stays one. -/
def promote (store : SourceStore) (p : Path) (role : Role) : SourceStore :=
  match role with
  | .dependency => store
  | .primary =>
    { store with units := store.units.map fun unit =>
        if unit.path.same p then { unit with role := .primary } else unit }

/-- Adds the file at a canonical path with the given text, or changes its role if it is there. -/
def add (store : SourceStore) (p : Path) (text : String) (role : Role) : SourceStore :=
  match store.get? p with
  | some _ => store.promote p role
  | none =>
    { store with units := store.units ++ [⟨p, Source.Constant.substitute store.constants text, role⟩] }

/-- The canonical path and the text of a file. -/
def read (tree : FileTree) (p : Path) : Result (Path × String) :=
  match tree.canonical p with
  | .error fault => .error (.file p fault)
  | .ok canonical =>
    match tree.readText canonical with
    | .error fault => .error (.file canonical fault)
    | .ok text => .ok (canonical, text)

/-- Loads the file that a path leads to unless it is loaded, and answers its canonical path. -/
def load (store : SourceStore) (tree : FileTree) (p : Path) (role : Role) :
    Result (Path × SourceStore) :=
  match tree.canonical p with
  | .error fault => .error (.file p fault)
  | .ok canonical =>
    match store.get? canonical with
    | some _ => .ok (canonical, store.promote canonical role)
    | none =>
      match tree.readText canonical with
      | .error fault => .error (.file canonical fault)
      | .ok text => .ok (canonical, store.add canonical text role)

/-- Loads a file that is selected for the build. -/
def loadPrimary (store : SourceStore) (tree : FileTree) (p : Path) :
    Result (SourceUnit × SourceStore) := do
  let (canonical, store) ← store.load tree p .primary
  return (← store.unit canonical, store)

/-- Loads files that are selected for the build: all are read before any is added. Answers their
canonical paths, each once. -/
def loadPrimaries (store : SourceStore) (tree : FileTree) (paths : List Path) :
    Result (List Path × SourceStore) := do
  let files ← paths.mapM (read tree)
  let primaries := files.foldl (fun found (p, _) => if found.any (·.same p) then found else found ++ [p]) []
  return (primaries, files.foldl (fun store (p, text) => store.add p text .primary) store)

/-! ## References -/

/-- The key under which a reference is remembered: the normal form of the place meant by a relative
one, and the reference itself otherwise. -/
def requestKey (reference : String) (directory : Path) : String :=
  if Source.Import.isRelative reference then (directory.child reference).normalized.text else reference

/-- The places where a reference is looked for before the packages. -/
def candidates (base : Path) (reference : String) (directory : Path) : List Path :=
  let direct := if Source.Import.isRelative reference then directory.child reference else base.child reference
  [direct, (base.child "contracts").child reference, (base.child "src").child reference].map Path.normalized

/-- The vendored packages, and the store that remembers them. -/
def withVendored (store : SourceStore) (tree : FileTree) : Dict Path × SourceStore :=
  match store.vendored with
  | some index => (index, store)
  | none =>
    let index := Source.vendored tree store.base
    (index, { store with vendored := some index })

/-- The file that a reference means, or the places that were searched. -/
def locate (store : SourceStore) (tree : FileTree) (reference : String) (directory : Path) :
    Except (List Path) Path × SourceStore :=
  let places := candidates store.base reference directory
  match places.find? tree.isFile with
  | some file => (.ok file, store)
  | none =>
    if Source.Import.isRelative reference then (.error places, store)
    else
      match Source.Package.resolve? tree store.base reference with
      | some file => (.ok file, store)
      | none =>
        let (index, store) := store.withVendored tree
        match index.get? reference with
        | some file => (.ok file, store)
        | none =>
          (.error (places ++ [(store.base.child "node_modules").child reference,
            ((store.base.child "lib").child "**").child "src"]), store)

/-- Remembers where a reference led to. -/
def remember (store : SourceStore) (key : String) (p : Path) : SourceStore :=
  { store with aliases := store.aliases.insert key p }

/-- The unit that a reference means in a file of the given directory. Also answers the store that a
failure leaves. -/
def resolve (store : SourceStore) (tree : FileTree) (reference : String) (directory : Path) :
    Result SourceUnit × SourceStore :=
  let key := requestKey reference directory
  match store.aliases.get? key with
  | some p => (store.unit p, store)
  | none =>
    match store.locate tree reference directory with
    | (.error searched, store) => (.error (.sourceNotFound reference none searched), store)
    | (.ok file, store) =>
      match store.load tree file .dependency with
      | .error e => (.error e, store)
      | .ok (canonical, store) =>
        let store := store.remember key canonical
        (store.unit canonical, store)

/-! ## Hashes -/

/-- The current hash of every file of a unit, by the key of the file. -/
def hashes (store : SourceStore) (files : List Path) : Result (Dict String) := do
  let entries ← files.mapM fun p => do return (p.key store.base, (← store.unit p).hash)
  return Dict.ofList entries

end SourceStore

end SolidityBuild
