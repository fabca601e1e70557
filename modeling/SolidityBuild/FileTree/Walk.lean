import SolidityBuild.FileTree.Basic

/-!
# Walking a tree

Lists the files below a directory: depth first, the entries of every directory in order of their
names, through symbolic links. A link that leads nowhere is passed over, and so is one that leads to a
directory the walk is already inside of; so a walk ends although links may form cycles.
-/

namespace SolidityBuild.FileTree

/-! ## What bounds a walk -/

/-- The locations of all entries, and the root. -/
def locations (tree : FileTree) : List Location := [] :: tree.nodes.map (·.1)

/-- The length of the longest of some locations. -/
def longest (locations : List Location) : Nat := locations.foldr (fun l n => max l.length n) 0

/-- How many of some locations are not among those the walk is inside of. -/
def outside (inside locations : List Location) : Nat :=
  (locations.filter fun l => !inside.contains l).length

theorem length_le_longest {locations : List Location} {l : Location} (h : l ∈ locations) :
    l.length ≤ longest locations := by
  induction locations with
  | nil => simp at h
  | cons first rest ih =>
    unfold longest at *
    simp only [List.foldr_cons]
    rcases List.mem_cons.1 h with rfl | h
    · exact Nat.le_max_left _ _
    · exact Nat.le_trans (ih h) (Nat.le_max_right _ _)

theorem outside_cons_le (inside locations : List Location) (l : Location) :
    outside (l :: inside) locations ≤ outside inside locations := by
  induction locations with
  | nil => simp [outside]
  | cons first rest ih =>
    unfold outside at *
    simp only [List.filter_cons]
    grind

theorem outside_cons_lt {inside locations : List Location} {l : Location} (mem : l ∈ locations)
    (new : l ∉ inside) : outside (l :: inside) locations < outside inside locations := by
  induction locations with
  | nil => simp at mem
  | cons first rest ih =>
    have := outside_cons_le inside rest l
    unfold outside at *
    simp only [List.filter_cons]
    grind

theorem mem_locations_of_child {tree : FileTree} {directory : Location} {entry : String × Node}
    (h : entry ∈ tree.children directory) : directory ++ [entry.1] ∈ tree.locations := by
  unfold children at h
  rw [List.mem_mergeSort, List.mem_filterMap] at h
  obtain ⟨⟨place, found⟩, mem, eq⟩ := h
  dsimp only at eq
  split at eq
  · next last hlast =>
    split at eq
    · next above =>
      simp only [Option.some.injEq] at eq
      subst eq
      refine List.mem_cons_of_mem _ (List.mem_map.2 ⟨(place, found), mem, ?_⟩)
      obtain ⟨front, rfl⟩ := List.getLast?_eq_some_iff.1 hlast
      simpa using above
    · simp at eq
  · simp at eq

theorem mem_locations_of_node {tree : FileTree} {location : Location} {node : Node}
    (h : tree.node? location = some node) : location ∈ tree.locations := by
  unfold node? at h
  unfold locations
  split at h
  · next empty => simp at empty; simp [empty]
  · rw [List.lookup_eq_some_iff] at h
    obtain ⟨before, after, eq, _⟩ := h
    exact List.mem_cons_of_mem _ (by simp [eq])

/-! ## The walk -/

/-- Continues a path by names. -/
def extend (p : Path) (names : List String) : Path := names.foldl (fun q name => q.join ⟨[name]⟩) p

set_option linter.unusedVariables false in
/-- The files below a directory that was reached from `root` by `names`, each given by the names that
lead to it from `root`. `inside` are the directories the walk is in, the nearest first. -/
def walk (tree : FileTree) (root : Path) (names : List String) (directory : Location)
    (inside : List Location) : List (List String) :=
  (tree.children directory).attach.flatMap fun ⟨(name, node), isChild⟩ =>
    let names := names ++ [name]
    match node with
    | .file _ => [names]
    | .directory =>
      walk tree root names (directory ++ [name]) ((directory ++ [name]) :: inside)
    | .link _ =>
      match tree.locate (extend root names) with
      | .error _ => []
      | .ok location =>
        match found : tree.node? location with
        | some (.file _) => [names]
        | some .directory =>
          if location ∈ inside then [] else walk tree root names location (location :: inside)
        | _ => []
termination_by (outside inside tree.locations, longest tree.locations + 1 - directory.length)
decreasing_by
  · have mem := mem_locations_of_child isChild
    have le := outside_cons_le inside tree.locations (directory ++ [name])
    have short := length_le_longest mem
    simp only [List.length_append, List.length_singleton] at short ⊢
    rcases Nat.lt_or_eq_of_le le with lt | eq
    · exact Prod.Lex.left _ _ lt
    · rw [eq]
      exact Prod.Lex.right _ (by omega)
  · next new => exact Prod.Lex.left _ _ (outside_cons_lt (mem_locations_of_node found) new)

/-- The files below the directory that a path leads to, each given by the names that lead to it. -/
def filesBelow (tree : FileTree) (root : Path) : List (List String) :=
  match tree.locate root with
  | .ok location => walk tree root [] location [location]
  | .error _ => []

end SolidityBuild.FileTree
