import SolidityBuild.FileTree.Basic
import SolidityBuild.Proofs.Paths
import SolidityBuild.Proofs.Results

/-!
# Where paths lead

A path leads to a location whether there is an entry or not. Where it leads depends on the directories
and links of the tree alone: files and free names are alike to it. So writing files does not change where
any path leads, and creating directories does not change what a path that leads to an entry leads to. A
path that does not name a link leads to a location with the last name of the path.
-/

namespace SolidityBuild.FileTree

open SolidityBuild.Path (IsName)

/-! ## Entries -/

theorem lookup_replaceAt (location other : Location) (node : Node) (nodes : List (Location × Node)) :
    (replaceAt location node nodes).lookup other =
      if other = location then (nodes.lookup location).map fun _ => node else nodes.lookup other := by
  induction nodes with
  | nil => simp [replaceAt]
  | cons entry rest ih =>
    obtain ⟨place, old⟩ := entry
    unfold replaceAt at ih ⊢
    by_cases here : place = location
    · subst here
      by_cases same : other = place
      · subst same
        simp
      · have differs : (other == place) = false := by simpa using same
        simp [List.lookup_cons, same, differs, ih]
    · have differs : (location == place) = false := by simpa using Ne.symm here
      simp only [List.map_cons, if_neg here, List.lookup_cons, ih, differs]
      by_cases same : other = place
      · subst same
        simp [here]
      · have elsewhere : (other == place) = false := by simpa using same
        simp [elsewhere]

/-- What stands where after an entry was put somewhere below the root. -/
theorem node?_setNode (tree : FileTree) {location : Location} (below : location ≠ []) (node : Node)
    (other : Location) :
    (tree.setNode location node).node? other = if other = location then some node else tree.node? other := by
  unfold node? setNode
  by_cases root : other = []
  · subst root
    simp [Ne.symm below]
  · have notRoot : other.isEmpty = false := by simpa using root
    simp only [notRoot, Bool.false_eq_true, if_false]
    split
    · next present =>
      obtain ⟨old, found⟩ := Option.isSome_iff_exists.mp present
      simp only [lookup_replaceAt, found, Option.map_some]
    · next absent =>
      have unlisted := Option.not_isSome_iff_eq_none.mp absent
      by_cases same : other = location
      · subst same
        simp [List.lookup_append, unlisted]
      · have differs : (other == location) = false := by simpa using same
        simp [List.lookup_append, same, List.lookup_cons, differs]

@[simp] theorem workingDirectory_setNode (tree : FileTree) (location : Location) (node : Node) :
    (tree.setNode location node).workingDirectory = tree.workingDirectory := by
  unfold setNode
  split <;> rfl

/-! ## Locations of paths -/

/-- The location of a place. -/
def Place.location : Place → Location
  | .taken location => location
  | .free directory name => directory ++ [name]

/-- Where an attempt to follow a path leads. -/
def ending (attempt : Except Fault Place) : Option Location := attempt.toOption.map Place.location

/-- The location that a path leads to, be there an entry or not. -/
def location? (tree : FileTree) (p : Path) : Option Location := ending (tree.place p)

/-- A directory or a link at a location, which decides where paths through it lead. -/
def passage? (tree : FileTree) (location : Location) : Option Node :=
  match tree.node? location with
  | some (.file _) => none
  | node => node

/-- Two trees with the same directories and links. -/
structure SamePassages (tree other : FileTree) : Prop where
  workingDirectory : other.workingDirectory = tree.workingDirectory
  passage : ∀ location, other.passage? location = tree.passage? location

theorem SamePassages.refl (tree : FileTree) : SamePassages tree tree := ⟨rfl, fun _ => rfl⟩

theorem SamePassages.trans {tree middle other : FileTree} (first : SamePassages tree middle)
    (second : SamePassages middle other) : SamePassages tree other :=
  ⟨second.workingDirectory.trans first.workingDirectory,
    fun location => (second.passage location).trans (first.passage location)⟩

theorem ending_follow {tree other : FileTree} (same : ∀ location, other.passage? location = tree.passage? location)
    {onLink onLink' : Location → Path → List String → Except Fault Place}
    (agree : ∀ directory target rest, ending (onLink' directory target rest) = ending (onLink directory target rest))
    (directory : Location) (segments : List String) :
    ending (follow other onLink' directory segments) = ending (follow tree onLink directory segments) := by
  induction segments generalizing directory with
  | nil => rfl
  | cons segment rest ih =>
    unfold follow
    split
    · exact ih directory
    split
    · exact ih directory.dropLast
    have here := same (directory ++ [segment])
    unfold passage? at here
    cases old : tree.node? (directory ++ [segment]) with
    | none =>
      cases new : other.node? (directory ++ [segment]) with
      | none => rfl
      | some node =>
        cases node with
        | file content => by_cases last : rest.isEmpty <;> simp [last, ending, Except.toOption, Place.location]
        | directory => simp [old, new] at here
        | link target => simp [old, new] at here
    | some node =>
      cases new : other.node? (directory ++ [segment]) with
      | none =>
        cases node with
        | file content => by_cases last : rest.isEmpty <;> simp [last, ending, Except.toOption, Place.location]
        | directory => simp [old, new] at here
        | link target => simp [old, new] at here
      | some node' =>
        cases node <;> cases node' <;> simp [old, new] at here
        · by_cases last : rest.isEmpty <;> simp [last, ending, Except.toOption, Place.location]
        · exact ih _
        · rw [here]
          exact agree directory _ rest

theorem ending_followLinks {tree other : FileTree}
    (same : ∀ location, other.passage? location = tree.passage? location) (links : Nat) (directory : Location)
    (segments : List String) :
    ending (followLinks other links directory segments) = ending (followLinks tree links directory segments) := by
  induction links generalizing directory segments with
  | zero => exact ending_follow same (fun _ _ _ => rfl) directory segments
  | succ links ih => exact ending_follow same (fun _ _ _ => ih _ _) directory segments

/-- In trees with the same passages every path leads to the same location. -/
theorem SamePassages.location?_eq {tree other : FileTree} (same : SamePassages tree other) (p : Path) :
    other.location? p = tree.location? p := by
  unfold location? place
  rw [same.workingDirectory]
  split
  · rfl
  split
  · rfl
  · exact ending_followLinks same.passage linkLimit _ _

/-! ## Reading -/

theorem locate_eq_ok_iff {tree : FileTree} {p : Path} {location : Location} :
    tree.locate p = .ok location ↔ tree.place p = .ok (.taken location) := by
  unfold locate
  split
  · next leads => simp [leads]
  · next leads => simp [leads]
  · next leads => simp [leads]

theorem place_eq_ok_iff {tree : FileTree} {p : Path} {place : Place} :
    tree.place p = .ok place ↔ holdsNul p = false ∧ p.isEmpty = false ∧
      followLinks tree linkLimit (start tree.workingDirectory p) p.segments = .ok place := by
  unfold FileTree.place
  split
  · next nul => simp [nul]
  next notNul =>
  split
  · next empty => simp [empty]
  next notEmpty =>
  simp [notNul, notEmpty]

/-- Free names are free. -/
theorem node?_of_follow_free {tree : FileTree} {onLink : Location → Path → List String → Except Fault Place}
    (beyond : ∀ {directory target rest above name}, onLink directory target rest = .ok (.free above name) →
      tree.node? (above ++ [name]) = none)
    {directory : Location} {segments : List String} {above : Location} {name : String}
    (leads : follow tree onLink directory segments = .ok (.free above name)) :
    tree.node? (above ++ [name]) = none := by
  induction segments generalizing directory with
  | nil => cases leads
  | cons segment rest ih =>
    unfold follow at leads
    split at leads
    · exact ih leads
    split at leads
    · exact ih leads
    split at leads
    · next vacant =>
      split at leads
      · cases leads
        exact vacant
      · cases leads
    · exact ih leads
    · split at leads <;> cases leads
    · exact beyond leads

theorem node?_of_place_free {tree : FileTree} {p : Path} {above : Location} {name : String}
    (leads : tree.place p = .ok (.free above name)) : tree.node? (above ++ [name]) = none := by
  have beyond : ∀ links {directory segments above name},
      followLinks tree links directory segments = .ok (.free above name) →
        tree.node? (above ++ [name]) = none := by
    intro links
    induction links with
    | zero => exact node?_of_follow_free (fun stops => by cases stops)
    | succ links ih => exact node?_of_follow_free ih
  exact beyond _ (place_eq_ok_iff.mp leads).2.2

/-- A path reads as the text of the file at its location. -/
theorem readText_eq_ok_iff {tree : FileTree} {p : Path} {text : String} :
    tree.readText p = .ok text ↔
      ∃ location, tree.location? p = some location ∧ tree.node? location = some (.file (.text text)) := by
  unfold readText locate location? ending
  cases leads : tree.place p with
  | error fault => simp [Except.toOption, bind, Except.bind]
  | ok place =>
    cases place with
    | free directory name =>
      simp [Except.toOption, bind, Except.bind, Place.location, node?_of_place_free leads]
    | taken location =>
      simp only [bind, Except.bind, Except.toOption, Option.map_some, Place.location, Option.some.injEq,
        exists_eq_left']
      cases tree.node? location with
      | none => simp
      | some node =>
        cases node with
        | file content => cases content <;> simp
        | directory => simp
        | link target => simp

/-- A path reads alike in two trees if it leads to the same place, which has the same entry in both. -/
theorem readText_congr {tree other : FileTree} {p : Path} {location : Location} (leads : tree.locate p = .ok location)
    (leads' : other.locate p = .ok location) (same : tree.node? location = other.node? location) :
    tree.readText p = other.readText p := by
  unfold readText
  rw [leads, leads']
  simp only [bind, Except.bind, same]

/-! ## More directories -/

/-- A tree has all entries of another one, and nothing more than directories. -/
structure Keeps (tree other : FileTree) : Prop where
  workingDirectory : other.workingDirectory = tree.workingDirectory
  entry : ∀ {location node}, tree.node? location = some node → other.node? location = some node
  added : ∀ {location node}, other.node? location = some node → tree.node? location = some node ∨ node = .directory

/-- A tree has the directories and links of another one, and a file wherever that one has a file. -/
structure Covers (tree other : FileTree) : Prop where
  workingDirectory : other.workingDirectory = tree.workingDirectory
  directory : ∀ {location}, tree.node? location = some .directory → other.node? location = some .directory
  link : ∀ {location target}, tree.node? location = some (.link target) → other.node? location = some (.link target)
  file : ∀ {location content}, tree.node? location = some (.file content) →
    ∃ content', other.node? location = some (.file content')

theorem Keeps.covers {tree other : FileTree} (keeps : Keeps tree other) : Covers tree other :=
  ⟨keeps.workingDirectory, keeps.entry, keeps.entry, fun found => ⟨_, keeps.entry found⟩⟩

theorem Covers.follow_taken {tree other : FileTree} (covers : Covers tree other)
    {onLink onLink' : Location → Path → List String → Except Fault Place} {location : Location}
    (beyond : ∀ {directory target rest}, onLink directory target rest = .ok (.taken location) →
      onLink' directory target rest = .ok (.taken location))
    {directory : Location} {segments : List String}
    (leads : follow tree onLink directory segments = .ok (.taken location)) :
    follow other onLink' directory segments = .ok (.taken location) := by
  induction segments generalizing directory with
  | nil => exact leads
  | cons segment rest ih =>
    unfold follow at leads ⊢
    split at leads
    · next void =>
      rw [if_pos void]
      exact ih leads
    next notVoid =>
    rw [if_neg notVoid]
    split at leads
    · next up =>
      rw [if_pos up]
      exact ih leads
    next notUp =>
    rw [if_neg notUp]
    split at leads
    · split at leads <;> cases leads
    · next found =>
      rw [covers.directory found]
      exact ih leads
    · next found =>
      obtain ⟨content, found'⟩ := covers.file found
      rw [found']
      exact leads
    · next found =>
      rw [covers.link found]
      exact beyond leads

/-- A path that leads to an entry leads to the same one when entries are added and files change. -/
theorem Covers.locate {tree other : FileTree} (covers : Covers tree other) {p : Path} {location : Location}
    (found : tree.locate p = .ok location) : other.locate p = .ok location := by
  have beyond : ∀ links {directory segments},
      followLinks tree links directory segments = .ok (.taken location) →
        followLinks other links directory segments = .ok (.taken location) := by
    intro links
    induction links with
    | zero => exact covers.follow_taken (fun stops => by cases stops)
    | succ links ih => exact covers.follow_taken ih
  obtain ⟨notNul, notEmpty, leads⟩ := place_eq_ok_iff.mp (locate_eq_ok_iff.mp found)
  refine locate_eq_ok_iff.mpr (place_eq_ok_iff.mpr ⟨notNul, notEmpty, ?_⟩)
  rw [covers.workingDirectory]
  exact beyond _ leads

theorem Keeps.locate {tree other : FileTree} (keeps : Keeps tree other) {p : Path} {location : Location}
    (found : tree.locate p = .ok location) : other.locate p = .ok location := keeps.covers.locate found

theorem isDirectory_iff {tree : FileTree} {p : Path} :
    tree.isDirectory p = true ↔ ∃ location, tree.locate p = .ok location ∧ tree.node? location = some .directory := by
  unfold isDirectory target?
  cases tree.locate p <;> simp

theorem Covers.isDirectory {tree other : FileTree} (covers : Covers tree other) {p : Path}
    (there : tree.isDirectory p = true) : other.isDirectory p = true := by
  obtain ⟨location, leads, entry⟩ := isDirectory_iff.mp there
  exact isDirectory_iff.mpr ⟨location, covers.locate leads, covers.directory entry⟩

theorem Keeps.readText {tree other : FileTree} (keeps : Keeps tree other) {p : Path} {text : String}
    (read : tree.readText p = .ok text) : other.readText p = .ok text := by
  unfold FileTree.readText at read ⊢
  obtain ⟨location, found, content⟩ := bind_eq_ok_iff.mp read
  rw [keeps.locate found]
  simp only [bind, Except.bind]
  cases entry : tree.node? location with
  | none => simp [entry] at content
  | some node =>
    rw [entry] at content
    rw [keeps.entry entry]
    exact content

/-! ## Paths that name links -/

/-- The place of the directory in which a path has its last component. -/
def holder (tree : FileTree) (p : Path) : Except Fault Place :=
  followLinks tree linkLimit (start tree.workingDirectory p) (p.segments.dropLast ++ [""])

/-- Whether the last component of a path names a symbolic link. -/
def isLink (tree : FileTree) (p : Path) : Bool :=
  match tree.holder p, p.segments.getLast? with
  | .ok (.taken directory), some name =>
    match tree.node? (directory ++ [name]) with
    | some (.link _) => true
    | _ => false
  | _, _ => false

/-- What `whole` leads to is the entry `name` of the directory that `above` leads to, or is behind a link
of that name. -/
def EndsBelow (tree : FileTree) (name : String) (above whole : Except Fault Place) : Prop :=
  ∀ place, whole = .ok place → ∃ directory, above = .ok (.taken directory) ∧
    ((∀ target, tree.node? (directory ++ [name]) ≠ some (.link target)) → place.location = directory ++ [name])

theorem follow_endsBelow {tree : FileTree} {name : String} (isName : IsName name)
    {onLink onLink' : Location → Path → List String → Except Fault Place}
    (beyond : ∀ directory target rest,
      EndsBelow tree name (onLink directory target (rest ++ [""])) (onLink' directory target (rest ++ [name])))
    (directory : Location) (segments : List String) :
    EndsBelow tree name (follow tree onLink directory (segments ++ [""]))
      (follow tree onLink' directory (segments ++ [name])) := by
  induction segments generalizing directory with
  | nil =>
    intro place leads
    refine ⟨directory, by simp [follow, Path.isVoid], fun notLink => ?_⟩
    simp only [List.nil_append, follow, isName.1, Bool.false_eq_true, if_false, if_neg isName.2] at leads
    cases entry : tree.node? (directory ++ [name]) with
    | none => simp only [entry] at leads; cases leads; rfl
    | some node =>
      cases node with
      | file content => simp only [entry] at leads; cases leads; rfl
      | directory => simp only [entry] at leads; cases leads; rfl
      | link target => exact absurd entry (notLink target)
  | cons segment rest ih =>
    simp only [List.cons_append, follow]
    split
    · exact ih directory
    split
    · exact ih directory.dropLast
    have more (last : String) : (rest ++ [last]).isEmpty = false := by simp
    cases tree.node? (directory ++ [segment]) with
    | none =>
      intro place leads
      simp [more] at leads
    | some node =>
      cases node with
      | file content =>
        intro place leads
        simp [more] at leads
      | directory => exact ih _
      | link target => exact beyond directory target rest

theorem followLinks_endsBelow {tree : FileTree} {name : String} (isName : IsName name) (links : Nat)
    (directory : Location) (segments : List String) :
    EndsBelow tree name (followLinks tree links directory (segments ++ [""]))
      (followLinks tree links directory (segments ++ [name])) := by
  induction links generalizing directory segments with
  | zero =>
    refine follow_endsBelow isName (fun _ _ _ place leads => ?_) directory segments
    cases leads
  | succ links ih =>
    refine follow_endsBelow isName (fun directory target rest => ?_) directory segments
    rw [← List.append_assoc, ← List.append_assoc]
    exact ih _ _

/-- A path that does not name a link leads to a location with the last name of the path. -/
theorem getLast?_location {tree : FileTree} {p : Path} {name : String} {location : Location}
    (last : p.segments.getLast? = some name) (isName : IsName name) (notLink : tree.isLink p = false)
    (leads : tree.location? p = some location) : location.getLast? = some name := by
  obtain ⟨front, segments⟩ := List.getLast?_eq_some_iff.mp last
  have below : EndsBelow tree name _ _ :=
    followLinks_endsBelow isName linkLimit (start tree.workingDirectory p) front
  unfold location? place at leads
  split at leads
  · cases leads
  split at leads
  · cases leads
  rw [segments] at leads
  cases whole : followLinks tree linkLimit (start tree.workingDirectory p) (front ++ [name]) with
  | error fault => simp [whole, ending, Except.toOption] at leads
  | ok found =>
    obtain ⟨directory, above, entry⟩ := below found whole
    have holds : tree.holder p = .ok (.taken directory) := by
      unfold holder
      rw [segments, List.dropLast_concat, above]
    have noLink : ∀ target, tree.node? (directory ++ [name]) ≠ some (.link target) := by
      intro target linked
      simp [isLink, holds, last, linked] at notLink
    have same : location = directory ++ [name] := by
      rw [← entry noLink]
      simpa [whole, ending, Except.toOption] using leads.symm
    rw [same, List.getLast?_concat]

end SolidityBuild.FileTree
