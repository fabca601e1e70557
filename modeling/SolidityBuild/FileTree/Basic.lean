import SolidityBuild.Path.Basic

/-!
# File trees

A tree of directories, files and symbolic links, seen from a working directory. A location is the list
of names that lead from the root to an entry, without links on the way; the root itself is always a
directory. A path is resolved step by step: every component but the last has to be a directory, `..`
leads to the directory above, and a link is replaced by its target.
-/

namespace SolidityBuild

/-- The names that lead from the root to an entry. -/
abbrev Location := List String

/-- What a file holds: a text, or bytes that are not UTF-8. -/
inductive Content where
  | text (text : String)
  | binary (bytes : List UInt8)
deriving DecidableEq, Inhabited

/-- The content of a file with the given bytes. -/
def Content.ofBytes (bytes : List UInt8) : Content :=
  match String.fromUTF8? ⟨bytes.toArray⟩ with
  | some decoded => .text decoded
  | none => .binary bytes

/-- An entry of a tree. -/
inductive Node where
  | file (content : Content)
  | directory
  | link (target : Path)
deriving DecidableEq

/-- Why an entry could not be reached or used. -/
inductive Fault where
  | notFound
  | notDirectory
  | isDirectory
  | exists
  | linkLoop
  | notUtf8
  | nulCharacter
deriving DecidableEq

/-- The wording of the operating system, or of the reader for texts it does not accept. -/
def Fault.message : Fault → String
  | .notFound => "No such file or directory (os error 2)"
  | .notDirectory => "Not a directory (os error 20)"
  | .isDirectory => "Is a directory (os error 21)"
  | .exists => "File exists (os error 17)"
  | .linkLoop => "Too many levels of symbolic links (os error 40)"
  | .notUtf8 => "stream did not contain valid UTF-8"
  | .nulCharacter => "file name contained an unexpected NUL byte"

/-- A tree and the working directory that relative paths start from. -/
structure FileTree where
  nodes : List (Location × Node)
  workingDirectory : Location
  /-- No location has two entries. -/
  distinct : (nodes.map (·.1)).Nodup
deriving DecidableEq

/-- The path of a location. -/
def Location.path (location : Location) : Path := Path.ofComponents (.root :: location.map .name)

namespace FileTree

/-- The tree that is only a root. -/
def empty : FileTree := ⟨[], [], List.Pairwise.nil⟩

/-- The entry at a location. -/
def node? (tree : FileTree) (location : Location) : Option Node :=
  if location.isEmpty then some .directory else tree.nodes.lookup location

/-- Entries with that at a location changed. -/
def replaceAt (location : Location) (node : Node) (nodes : List (Location × Node)) :
    List (Location × Node) :=
  nodes.map fun entry => if entry.1 = location then (location, node) else entry

theorem locations_replaceAt (location : Location) (node : Node) (nodes : List (Location × Node)) :
    (replaceAt location node nodes).map (·.1) = nodes.map (·.1) := by
  induction nodes with
  | nil => rfl
  | cons entry rest ih => by_cases same : entry.1 = location <;> simp_all [replaceAt]

theorem nodup_append_new {location : Location} {node : Node} {nodes : List (Location × Node)}
    (distinct : (nodes.map (·.1)).Nodup) (new : ¬(nodes.lookup location).isSome) :
    ((nodes ++ [(location, node)]).map (·.1)).Nodup := by
  have absent : ∀ entry ∈ nodes, entry.1 ≠ location := by
    have h := List.lookup_eq_none_iff.1 (Option.not_isSome_iff_eq_none.1 new)
    intro entry mem same
    have differs := h entry mem
    simp [same] at differs
  rw [List.map_append, List.nodup_append]
  refine ⟨distinct, by simp, ?_⟩
  intro a mem b added
  obtain ⟨entry, entryMem, rfl⟩ := List.mem_map.1 mem
  simp only [List.map_cons, List.map_nil, List.mem_singleton] at added
  exact added ▸ absent entry entryMem

/-- Puts an entry at a location. -/
def setNode (tree : FileTree) (location : Location) (node : Node) : FileTree :=
  if present : (tree.nodes.lookup location).isSome then
    { tree with
      nodes := replaceAt location node tree.nodes
      distinct := by rw [locations_replaceAt]; exact tree.distinct }
  else
    { tree with
      nodes := tree.nodes ++ [(location, node)]
      distinct := nodup_append_new tree.distinct present }

/-- Removes the entry at a location with everything below it. -/
def removeAll (tree : FileTree) (location : Location) : FileTree :=
  { tree with
    nodes := tree.nodes.filter fun entry => !location.isPrefixOf entry.1
    distinct := tree.distinct.sublist (List.filter_sublist.map _) }

/-- The names and entries directly below a location, in order of the names. -/
def children (tree : FileTree) (location : Location) : List (String × Node) :=
  (tree.nodes.filterMap fun (place, node) =>
    match place.getLast? with
    | some name => if place.dropLast = location then some (name, node) else none
    | none => none).mergeSort fun a b => a.1 ≤ b.1

/-! ## Resolution -/

/-- How many links a path may lead through. -/
def linkLimit : Nat := 40

/-- Where a path ends: at an entry that is not a link, or at a name that is free in a directory. -/
inductive Place where
  | taken (location : Location)
  | free (directory : Location) (name : String)
deriving DecidableEq

/-- Where a path starts that is used in a directory. -/
def start (directory : Location) (p : Path) : Location := if p.isAbsolute then [] else directory

/-- Follows segments from a directory; `onLink` goes on from a link's directory with its target and the
segments behind it. -/
def follow (tree : FileTree) (onLink : Location → Path → List String → Except Fault Place) :
    Location → List String → Except Fault Place
  | directory, [] => .ok (.taken directory)
  | directory, segment :: rest =>
    if Path.isVoid segment then follow tree onLink directory rest
    else if segment = ".." then follow tree onLink directory.dropLast rest
    else
      match tree.node? (directory ++ [segment]) with
      | none => if rest.isEmpty then .ok (.free directory segment) else .error .notFound
      | some .directory => follow tree onLink (directory ++ [segment]) rest
      | some (.file _) =>
        if rest.isEmpty then .ok (.taken (directory ++ [segment])) else .error .notDirectory
      | some (.link target) => onLink directory target rest

/-- Follows segments from a directory through at most `links` links. -/
def followLinks (tree : FileTree) : (links : Nat) → Location → List String → Except Fault Place
  | 0 => follow tree fun _ _ _ => .error .linkLoop
  | links + 1 => follow tree fun directory target rest =>
    followLinks tree links (start directory target) (target.segments ++ rest)

/-- Whether the character that ends texts for the operating system is in a path. -/
def holdsNul (p : Path) : Bool := p.segments.any fun segment => segment.toList.contains '\x00'

/-- Where a path ends. -/
def place (tree : FileTree) (p : Path) : Except Fault Place :=
  if holdsNul p then .error .nulCharacter
  else if p.isEmpty then .error .notFound
  else followLinks tree linkLimit (start tree.workingDirectory p) p.segments

/-- The location of the entry that a path leads to. -/
def locate (tree : FileTree) (p : Path) : Except Fault Location :=
  match tree.place p with
  | .ok (.taken location) => .ok location
  | .ok (.free _ _) => .error .notFound
  | .error fault => .error fault

/-- The entry that a path leads to. -/
def target? (tree : FileTree) (p : Path) : Option Node :=
  match tree.locate p with
  | .ok location => tree.node? location
  | .error _ => none

/-- Whether a path leads to a file. -/
def isFile (tree : FileTree) (p : Path) : Bool :=
  match tree.target? p with
  | some (.file _) => true
  | _ => false

/-- Whether a path leads to a directory. -/
def isDirectory (tree : FileTree) (p : Path) : Bool := tree.target? p = some .directory

/-- Whether a path leads to anything. -/
def isPresent (tree : FileTree) (p : Path) : Bool := (tree.target? p).isSome

/-- The path of an entry without links, `.` and `..`. -/
def canonical (tree : FileTree) (p : Path) : Except Fault Path := (tree.locate p).map Location.path

/-! ## Reading and writing -/

/-- The text of the file that a path leads to. -/
def readText (tree : FileTree) (p : Path) : Except Fault String := do
  match tree.node? (← tree.locate p) with
  | some (.file (.text text)) => .ok text
  | some (.file (.binary _)) => .error .notUtf8
  | some .directory => .error .isDirectory
  | _ => .error .notFound

/-- Writes a file, which may be new but whose directory must be there. -/
def write (tree : FileTree) (p : Path) (content : Content) : Except Fault FileTree := do
  match ← tree.place p with
  | .free directory name => .ok (tree.setNode (directory ++ [name]) (.file content))
  | .taken location =>
    match tree.node? location with
    | some (.file _) => .ok (tree.setNode location (.file content))
    | _ => .error .isDirectory

/-- The segments of a path without the slashes at its end. -/
def withoutSlashes (p : Path) : List String := (p.segments.reverse.dropWhile (· = "")).reverse

/-- Creates a directory whose parent must be there; nothing may have its name, not even a link. -/
def makeDirectory (tree : FileTree) (p : Path) : Except Fault FileTree :=
  if holdsNul p then .error .nulCharacter
  else if p.isEmpty then .error .notFound
  else
    let segments := withoutSlashes p
    match segments.getLast? with
    | none => .error .exists
    | some name => do
      let above : Path :=
        if segments.length = 1 then ⟨["."]⟩ else ⟨segments.dropLast ++ [""]⟩
      let directory ← tree.locate above
      if name = "." || name = ".." || (tree.node? (directory ++ [name])).isSome then .error .exists
      else .ok (tree.setNode (directory ++ [name]) .directory)

/-- Creates a directory if those above it are there, or finds it in place. -/
def ensureDirectory (tree : FileTree) (p : Path) : Except Fault FileTree :=
  match tree.makeDirectory p with
  | .ok made => .ok made
  | .error fault => if tree.isDirectory p then .ok tree else .error fault

/-- Creates the first of the given paths, of which each is the parent of the one before it, after
those that are missing. Also answers the tree that a failure leaves. -/
def makeChain (tree : FileTree) : List Path → Except Fault Unit × FileTree
  | [] => (.ok (), tree)
  | p :: above =>
    match tree.ensureDirectory p with
    | .ok made => (.ok (), made)
    | .error .notFound =>
      match makeChain tree above with
      | (.error fault, left) => (.error fault, left)
      | (.ok (), ready) =>
        match ready.ensureDirectory p with
        | .ok made => (.ok (), made)
        | .error fault => (.error fault, ready)
    | .error fault => (.error fault, tree)

/-- Creates a directory and those above it that are missing. -/
def makeDirectories (tree : FileTree) (p : Path) : Except Fault Unit × FileTree :=
  tree.makeChain (p.ancestors.filter (!·.isEmpty))

end FileTree

end SolidityBuild
