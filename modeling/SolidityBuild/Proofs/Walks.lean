import SolidityBuild.FileTree.Walk
import SolidityBuild.Proofs.Results

/-!
# Walks

Every name leads a walk further on (`length_walk`). Where entries are sorted, or a walk is bounded, an evaluation gets
stuck; but entries may stand in order, and a walk may be bounded by a number. A walk that is evaluated in this way
finds what every walk finds (`filesBelow_of_within`).
-/

namespace SolidityBuild.FileTree

/-! ## What a walk finds -/

/-- A walk leads further on by every name. -/
theorem length_walk {tree : FileTree} {root : Path} {names more : List String} {directory : Location}
    {inside : List Location} (mem : more ∈ walk tree root names directory inside) : names.length < more.length := by
  fun_induction walk tree root names directory inside with
  | case1 names directory inside intoDirectory throughLink =>
    obtain ⟨⟨⟨name, node⟩, isChild⟩, _, found⟩ := List.mem_flatMap.mp mem
    have further : names.length < (names ++ [name]).length := by simp
    cases node with
    | file content =>
      rw [List.mem_singleton.mp found]
      exact further
    | directory => exact Nat.lt_trans further (intoDirectory name isChild found)
    | link target =>
      dsimp only at found
      split at found
      · cases found
      split at found
      · rw [List.mem_singleton.mp found]
        exact further
      · split at found
        · cases found
        · next there new => exact Nat.lt_trans further (throughLink name _ there new found)
      · cases found

theorem ne_nil_of_mem_filesBelow {tree : FileTree} {root : Path} {more : List String}
    (mem : more ∈ tree.filesBelow root) : more ≠ [] := by
  unfold filesBelow at mem
  split at mem
  · exact List.ne_nil_of_length_pos (length_walk mem)
  · cases mem

/-! ## Bounded walks -/

/-- The files that are found by an entry of a directory, where `further` finds those of directories further on. -/
def through (tree : FileTree) (root : Path) (names : List String) (directory : Location) (inside : List Location)
    (further : List String → Location → List Location → Except Unit (List (List String))) (entry : String × Node) :
    Except Unit (List (List String)) :=
  let names := names ++ [entry.1]
  match entry.2 with
  | .file _ => .ok [names]
  | .directory => further names (directory ++ [entry.1]) ((directory ++ [entry.1]) :: inside)
  | .link _ =>
    match tree.locate (extend root names) with
    | .error _ => .ok []
    | .ok location =>
      match tree.node? location with
      | some (.file _) => .ok [names]
      | some .directory => if inside.contains location then .ok [] else further names location (location :: inside)
      | _ => .ok []

/-- The entries of a directory, if they stand in the order of their names. -/
def inOrder (tree : FileTree) (directory : Location) : Except Unit (List (String × Node)) :=
  let entries := tree.nodes.filterMap fun entry =>
    match entry.1.getLast? with
    | some name => if entry.1.dropLast = directory then some (name, entry.2) else none
    | none => none
  if entries.Pairwise fun a b => a.1 ≤ b.1 then .ok entries else .error ()

/-- A walk that fails where the entries of a directory are out of order, or more than `depth` directories are one
inside the other. -/
def walkWithin (tree : FileTree) (root : Path) :
    (depth : Nat) → List String → Location → List Location → Except Unit (List (List String))
  | 0, _, _, _ => .error ()
  | depth + 1, names, directory, inside => do
    let entries ← tree.inOrder directory
    let found ← entries.mapM (through tree root names directory inside (walkWithin tree root depth))
    return found.flatten

theorem children_of_inOrder {tree : FileTree} {directory : Location} {entries : List (String × Node)}
    (inOrder : tree.inOrder directory = .ok entries) : tree.children directory = entries := by
  unfold FileTree.inOrder at inOrder
  dsimp only at inOrder
  split at inOrder
  · next sorted =>
    cases inOrder
    exact List.mergeSort_of_pairwise (sorted.imp decide_eq_true)
  · cases inOrder

theorem flatMap_attach_of_mapM {α β ε : Type} {xs : List α} {f : α → Except ε (List β)} {g : {x // x ∈ xs} → List β}
    {parts : List (List β)} (each : xs.mapM f = .ok parts) (agree : ∀ x part, f x.1 = .ok part → g x = part) :
    xs.attach.flatMap g = parts.flatten := by
  have related := mapM_eq_ok_iff.mp each
  rw [List.flatMap_def]
  congr 1
  refine List.ext_getElem (by simpa using related.length_eq) fun i inside inside' => ?_
  rw [List.getElem_map]
  refine agree _ _ ?_
  rw [List.getElem_attach]
  exact related.get _ _

/-- Where a bounded walk does not fail, it finds what a walk finds. -/
theorem walk_of_within {tree : FileTree} {root : Path} {depth : Nat} {names : List String} {directory : Location}
    {inside : List Location} {found : List (List String)}
    (within : walkWithin tree root depth names directory inside = .ok found) :
    walk tree root names directory inside = found := by
  induction depth generalizing names directory inside found with
  | zero => cases within
  | succ depth ih =>
    obtain ⟨entries, inOrder, rest⟩ := bind_eq_ok_iff.mp within
    obtain ⟨parts, each, same⟩ := bind_eq_ok_iff.mp rest
    cases same
    cases children_of_inOrder inOrder
    rw [walk]
    refine flatMap_attach_of_mapM each ?_
    rintro ⟨⟨name, node⟩, isChild⟩ part made
    cases node with
    | file content => exact Except.ok.inj made
    | directory => exact ih made
    | link target =>
      unfold through at made
      dsimp only at made ⊢
      cases leads : tree.locate (extend root (names ++ [name])) with
      | error fault => rw [leads] at made; exact Except.ok.inj made
      | ok location =>
        rw [leads] at made
        dsimp only at made ⊢
        split
        · next content entry =>
          rw [entry] at made
          exact Except.ok.inj made
        · next entry =>
          rw [entry] at made
          dsimp only at made
          split
          · next around =>
            rw [if_pos (List.contains_iff_mem.mpr around)] at made
            exact Except.ok.inj made
          · next new =>
            rw [if_neg (mt List.contains_iff_mem.mp new)] at made
            exact ih made
        · next noFile noDirectory =>
          cases entry : tree.node? location with
          | none =>
            rw [entry] at made
            exact Except.ok.inj made
          | some node =>
            cases node with
            | file content => exact absurd entry (noFile content)
            | directory => exact absurd entry noDirectory
            | link target =>
              rw [entry] at made
              exact Except.ok.inj made

/-- The files below a directory, if no more than `depth` directories are one inside the other. -/
def filesWithin (tree : FileTree) (root : Path) (depth : Nat) : Except Unit (List (List String)) :=
  match tree.locate root with
  | .ok location => walkWithin tree root depth [] location [location]
  | .error _ => .ok []

theorem filesBelow_of_within {tree : FileTree} {root : Path} (depth : Nat) {found : List (List String)}
    (within : tree.filesWithin root depth = .ok found) : tree.filesBelow root = found := by
  unfold filesWithin at within
  unfold filesBelow
  cases leads : tree.locate root with
  | ok location =>
    rw [leads] at within
    exact walk_of_within within
  | error fault =>
    rw [leads] at within
    exact Except.ok.inj within

end SolidityBuild.FileTree
