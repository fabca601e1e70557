import SolidityBuild.ImportGraph

/-!
# Logical names

The compiler knows sources by names, not by files, and asks for the import of a source under a name it
works out itself: the reference as written, or for a relative one the reference joined to the name of
the importing source. A registry records the names of every file and which of them owns its content.
-/

namespace SolidityBuild

/-- The names seen so far. -/
structure NameRegistry where
  /-- The file that each name stands for. -/
  names : Dict Path
  /-- The name that owns the content of each file. -/
  owners : List (Path × String)
  /-- The names under which files selected for the build were registered. -/
  primaryNames : List String

namespace NameRegistry

/-- The registry without names. -/
def empty : NameRegistry := ⟨Dict.empty, [], []⟩

/-- The name that owns the content of a file. -/
def owner? (registry : NameRegistry) (file : Path) : Option String :=
  (registry.owners.find? (·.1.same file)).map (·.2)

/-- Gives the content of a file to a name. -/
def setOwner (registry : NameRegistry) (file : Path) (name : String) : NameRegistry :=
  { registry with owners :=
      if registry.owners.any (·.1.same file) then
        registry.owners.map fun entry => if entry.1.same file then (entry.1, name) else entry
      else registry.owners ++ [(file, name)] }

/-- Whether a name that is registered for a file becomes its owner: the first name of a file does, and a
primary name takes over from a name that was never primary. -/
def takesOver (registry : NameRegistry) (name : String) (file : Path) (isPrimary : Bool) : Bool :=
  match registry.owner? file with
  | none => true
  | some owner => owner ≠ name && isPrimary && !registry.primaryNames.contains owner

/-- Registers a name for a file. A name that stands for another file keeps doing so. -/
def register (registry : NameRegistry) (name : String) (file : Path) (isPrimary : Bool) : NameRegistry :=
  let taken := match registry.names.get? name with
    | some present => !present.same file
    | none => false
  if taken then registry
  else
    let named : NameRegistry :=
      { registry with
        names := if registry.names.contains name then registry.names else registry.names.insert name file
        primaryNames :=
          if isPrimary && !registry.primaryNames.contains name then registry.primaryNames ++ [name]
          else registry.primaryNames }
    if named.takesOver name file isPrimary then named.setOwner file name else named

/-- The names of a file in their order. -/
def namesOf (registry : NameRegistry) (file : Path) : List String :=
  (registry.names.toList.filter fun entry => entry.2.same file).map (·.1)

/-- Whether another name begins with this one. The compiler replaces names by their beginnings, so such
a name must not be replaced. The names that begin with it come right behind it in their order, so only the
next one is looked at. -/
def beginsAnother (registry : NameRegistry) (name : String) : Bool :=
  (registry.names.keys.find? (name < ·)).any fun next => name.toList.isPrefixOf next.toList

/-! ## Names of imports -/

/-- The part of a name up to its last slash, without the slash. -/
def directoryOf (name : String) : String :=
  String.ofList ((name.toList.reverse.dropWhile (· ≠ '/')).drop 1).reverse

/-- The name that the compiler gives to a relative import of the source with the given name. -/
def joined (importer reference : String) : String :=
  let directory := directoryOf importer
  let path :=
    if directory ≠ "" then (Path.ofText directory).child reference
    else if "/".toList.isPrefixOf importer.toList then (Path.ofText "/").child reference
    else .ofText reference
  path.normalized.text

/-- Registers the file that an import led to, under the name or names by which the compiler asks for
it from a source with the given names. -/
def registerImport (importerNames : List String) (registry : NameRegistry) (edge : ImportEdge) :
    NameRegistry :=
  if Source.Import.isRelative edge.reference then
    importerNames.foldl (fun registry name => registry.register (joined name edge.reference) edge.target false)
      registry
  else registry.register edge.reference edge.target false

/-- How many imports lead to files that are not among the given ones. -/
def unseen (seen : List Path) (edges : List ImportEdge) : Nat :=
  (edges.filter fun edge => !seen.any (·.same edge.target)).length

theorem unseen_append_le (seen : List Path) (p : Path) (edges : List ImportEdge) :
    unseen (seen ++ [p]) edges ≤ unseen seen edges := by
  unfold unseen
  induction edges with
  | nil => simp
  | cons edge rest ih => simp only [List.filter_cons]; grind

theorem unseen_append_lt {seen : List Path} {edges : List ImportEdge} {edge : ImportEdge}
    (mem : edge ∈ edges) (new : seen.any (·.same edge.target) = false) :
    unseen (seen ++ [edge.target]) edges < unseen seen edges := by
  have self : edge.target.same edge.target = true := by simp [Path.same]
  induction edges with
  | nil => simp at mem
  | cons first rest ih =>
    have le := unseen_append_le seen edge.target rest
    unfold unseen at *
    simp only [List.filter_cons]
    grind

theorem unseen_addNew (edges : List ImportEdge) (added : List ImportEdge) (sub : added ⊆ edges)
    (seen : List Path) :
    unseen (Workspace.addNew seen (added.map (·.target))) edges +
      (Workspace.addNew seen (added.map (·.target))).length ≤ unseen seen edges + seen.length := by
  induction added generalizing seen with
  | nil => simp [Workspace.addNew]
  | cons edge rest ih =>
    have mem : edge ∈ edges := sub (by simp)
    have subRest : rest ⊆ edges := fun e h => sub (by simp [h])
    by_cases known : seen.any (·.same edge.target) = true
    · have := ih subRest seen
      simp only [Workspace.addNew, List.map_cons, List.foldl_cons, known, if_true] at *
      exact this
    · have lt := unseen_append_lt mem (by simpa using known)
      have := ih subRest (seen ++ [edge.target])
      simp only [Workspace.addNew, List.map_cons, List.foldl_cons, known, Bool.false_eq_true, if_false] at *
      simp only [List.length_append, List.length_singleton] at this
      omega

theorem edges_subset (graph : ImportGraph) (p : Path) : graph.edges p ⊆ graph.allEdges := by
  intro edge h
  unfold ImportGraph.edges at h
  split at h
  · next expansion found =>
    exact List.mem_flatMap.2 ⟨expansion, List.mem_of_find?_eq_some found, h⟩
  · simp at h

theorem length_addNew (seen added : List Path) : seen.length ≤ (Workspace.addNew seen added).length := by
  unfold Workspace.addNew
  induction added generalizing seen with
  | nil => simp
  | cons p rest ih =>
    simp only [List.foldl_cons]
    refine Nat.le_trans ?_ (ih _)
    split <;> simp

/-- Registers the imports of the files in the queue, of the files these import, and so on, each file
once and in the order in which they are met. `seen` are all files that have been in the queue. -/
def registerReachable (graph : ImportGraph) (registry : NameRegistry) (seen : List Path) :
    (queue : List Path) → NameRegistry
  | [] => registry
  | importer :: queue =>
    let edges := graph.edges importer
    let known := Workspace.addNew seen (edges.map (·.target))
    registerReachable graph (edges.foldl (registerImport (registry.namesOf importer)) registry) known
      (queue ++ known.drop seen.length)
termination_by queue => unseen seen graph.allEdges + queue.length
decreasing_by
  have bound := unseen_addNew graph.allEdges (graph.edges importer) (edges_subset graph importer) seen
  have grows := length_addNew seen ((graph.edges importer).map (·.target))
  simp only [List.length_append, List.length_drop, List.length_cons]
  omega

/-- Registers a file selected for the build under its path, and all files it reaches. -/
def registerUnit (graph : ImportGraph) (registry : NameRegistry) (primary : Path) : NameRegistry :=
  registerReachable graph (registry.register primary.text primary true) [primary] [primary]

end NameRegistry

end SolidityBuild
