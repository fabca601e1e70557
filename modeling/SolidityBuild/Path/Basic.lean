/-!
# Paths

A path is kept as it was written: the texts between its slashes. What a path names is told by its
components, where empty segments and `.` vanish; paths with the same components are one place, however
they are spelled. Nothing here looks at files.
-/

namespace SolidityBuild

/-- A path as it is written: `/a//b` has the segments `""`, `"a"`, `""` and `"b"`. -/
structure Path where
  segments : List String
deriving DecidableEq, Inhabited

namespace Path

/-- A component of a path. Only a relative path that starts with `.` has the component `current`. -/
inductive Component where
  | root
  | current
  | parent
  | name (text : String)
deriving DecidableEq

/-! ## Text -/

/-- The texts between the slashes of a text. -/
def splitSlashes : List Char → List (List Char)
  | [] => [[]]
  | '/' :: rest => [] :: splitSlashes rest
  | c :: rest =>
    match splitSlashes rest with
    | first :: more => (c :: first) :: more
    | [] => [[c]]

/-- The path that a text spells. -/
def ofText (text : String) : Path := ⟨(splitSlashes text.toList).map String.ofList⟩

/-- The text of a path. -/
def text (p : Path) : String := "/".intercalate p.segments

instance : ToString Path := ⟨text⟩

/-! ## Components -/

/-- Whether a segment has no meaning of its own. -/
def isVoid (segment : String) : Bool := segment = "" || segment = "."

/-- The component of a segment behind the first one. -/
def component? (segment : String) : Option Component :=
  if isVoid segment then none else if segment = ".." then some .parent else some (.name segment)

/-- The components of a path. -/
def components (p : Path) : List Component :=
  match p.segments with
  | "" :: next :: rest => .root :: (next :: rest).filterMap component?
  | "." :: rest => .current :: rest.filterMap component?
  | segments => segments.filterMap component?

/-- How a component is spelled between slashes. -/
def Component.segment : Component → String
  | .root => ""
  | .current => "."
  | .parent => ".."
  | .name text => text

/-- The plain spelling of components. -/
def ofComponents : List Component → Path
  | [] => ⟨[""]⟩
  | [.root] => ⟨["", ""]⟩
  | components => ⟨components.map Component.segment⟩

/-- Whether two paths have the same components. -/
def same (p q : Path) : Bool := p.components = q.components

/-- Whether a path starts at the root. -/
def isAbsolute (p : Path) : Bool :=
  match p.segments with
  | "" :: _ :: _ => true
  | _ => false

/-- Whether a path has the empty text. -/
def isEmpty (p : Path) : Bool := p.segments.all (· = "") && p.segments.length ≤ 1

/-- Continues a path by another one; an absolute path stands alone. -/
def join (p q : Path) : Path :=
  if q.isAbsolute || p.isEmpty then q
  else if p.segments.getLast? = some "" then ⟨p.segments.dropLast ++ q.segments⟩
  else ⟨p.segments ++ q.segments⟩

/-- Continues a path by a text. -/
def child (p : Path) (text : String) : Path := p.join (ofText text)

/-- The path without its last component; the root and the empty path have none. -/
def parent? (p : Path) : Option Path :=
  match p.components with
  | [] => none
  | [.root] => none
  | components => some (ofComponents components.dropLast)

/-- A path, its parent, the parent of that, and so on. -/
def ancestors (p : Path) : List Path :=
  p :: (List.range p.components.length).filterMap fun i =>
    let components := p.components.take (p.components.length - 1 - i)
    if components.isEmpty && p.isAbsolute then none else some (ofComponents components)

/-- The last component if it is a name. -/
def fileName? (p : Path) : Option String :=
  match p.components.getLast? with
  | some (.name text) => some text
  | _ => none

/-! ## Order -/

/-- The rank of the kinds of components. -/
def Component.rank : Component → Nat
  | .root => 0
  | .current => 1
  | .parent => 2
  | .name _ => 3

/-- The order of components: by kind, names by their texts. -/
def Component.before (a b : Component) : Bool :=
  match a, b with
  | .name s, .name t => s < t
  | a, b => a.rank < b.rank

/-- Whether components come before others: the first difference decides, and a beginning comes
before what it begins. -/
def componentsBefore : List Component → List Component → Bool
  | [], rest => !rest.isEmpty
  | _ :: _, [] => false
  | a :: as, b :: bs => a.before b || (a = b && componentsBefore as bs)

/-- Whether a path comes before another in the order of components. -/
def before (p q : Path) : Bool := componentsBefore p.components q.components

/-- Puts a path at its place among ordered paths, unless it is there already. -/
def insertOrdered (p : Path) : List Path → List Path
  | [] => [p]
  | q :: rest =>
    if p.before q then p :: q :: rest
    else if p.same q then q :: rest
    else q :: insertOrdered p rest

/-- Paths in strictly increasing order; of several spellings of one place the first stays. -/
def ordered (paths : List Path) : List Path := paths.foldl (fun sorted p => insertOrdered p sorted) []

/-! ## Relative to a directory -/

/-- Segments without the first `count` that have a meaning. -/
def dropSegments : Nat → List String → List String
  | 0, segments => segments
  | _ + 1, [] => []
  | count + 1, segment :: rest =>
    if isVoid segment then dropSegments (count + 1) rest else dropSegments count rest

/-- Segments without those at either end that have no meaning. -/
def trimSegments (segments : List String) : List String :=
  ((segments.dropWhile isVoid).reverse.dropWhile isVoid).reverse

/-- The spelling of a path below a directory, if it lies there; inside, the spelling stays. -/
def below? (directory p : Path) : Option Path :=
  if directory.components.isPrefixOf p.components then
    match directory.components.length, p.segments with
    | 0, segments => some ⟨(segments.reverse.dropWhile isVoid).reverse⟩
    | count + 1, "" :: next :: rest => some ⟨trimSegments (dropSegments count (next :: rest))⟩
    | count + 1, "." :: rest => some ⟨trimSegments (dropSegments count rest)⟩
    | count + 1, segments => some ⟨trimSegments (dropSegments (count + 1) segments)⟩
  else none

/-- A stable name of a file: its path below the base directory, or all of it elsewhere. -/
def key (p base : Path) : String :=
  match below? base p with
  | some inside => if inside.isEmpty then p.text else inside.text
  | none => p.text

end Path

end SolidityBuild
