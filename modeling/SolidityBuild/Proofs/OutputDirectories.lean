import SolidityBuild.Artifact.Output
import SolidityBuild.Proofs.Resolution
import Mathlib.Data.List.TakeWhile

/-!
# Output directories

Making sure of the output directories creates nothing but directories to which their paths, or those of
directories above them, lead (`onlyCreates_ensureDirectories`). Whatever was there before stays as it was.
-/

namespace SolidityBuild.FileTree

/-- The entries of a tree stay as they are, and what is new are directories to which some paths lead. -/
structure OnlyCreates (places : List Path) (tree after : FileTree) : Prop where
  workingDirectory : after.workingDirectory = tree.workingDirectory
  node : ∀ location, after.node? location = tree.node? location ∨
    tree.node? location = none ∧ after.node? location = some .directory ∧
      ∃ p ∈ places, after.locate p = .ok location

section

variable {tree middle made after other : FileTree} {places more : List Path} {p : Path}

theorem OnlyCreates.refl (places : List Path) (tree : FileTree) : OnlyCreates places tree tree :=
  ⟨rfl, fun _ => .inl rfl⟩

theorem OnlyCreates.keeps (creates : OnlyCreates places tree after) : Keeps tree after := by
  refine ⟨creates.workingDirectory, fun {location node} found => ?_, fun {location node} found => ?_⟩
  · rcases creates.node location with same | ⟨new, _⟩
    · rw [same, found]
    · rw [new] at found
      cases found
  · rcases creates.node location with same | ⟨_, directory, _⟩
    · exact .inl (same ▸ found)
    · rw [directory] at found
      cases found
      exact .inr rfl

theorem OnlyCreates.mono (creates : OnlyCreates places tree after) (part : places ⊆ more) : OnlyCreates more tree after := by
  refine ⟨creates.workingDirectory, fun location => (creates.node location).imp_right ?_⟩
  rintro ⟨new, directory, p, mem, leads⟩
  exact ⟨new, directory, p, part mem, leads⟩

theorem OnlyCreates.trans (first : OnlyCreates places tree middle) (second : OnlyCreates places middle after) :
    OnlyCreates places tree after := by
  refine ⟨second.workingDirectory.trans first.workingDirectory, fun location => ?_⟩
  rcases second.node location with same | ⟨new, directory, here⟩
  · rw [same]
    refine (first.node location).imp_right ?_
    rintro ⟨new, directory, p, mem, leads⟩
    exact ⟨new, directory, p, mem, second.keeps.locate leads⟩
  · rcases first.node location with same | ⟨_, directory', _⟩
    · exact .inr ⟨same ▸ new, directory, here⟩
    · rw [new] at directory'
      cases directory'

/-! ## New directories -/

/-- Where a path leads with other segments behind the directory that it passes. -/
theorem Keeps.follow_append (keeps : Keeps tree other) {above location : Location} {tail : List String}
    {onLink onLink' : Location → Path → List String → Except Fault Place}
    (onwards : follow other onLink' above tail = .ok (.taken location))
    (beyond : ∀ {directory target rest}, onLink directory target (rest ++ [""]) = .ok (.taken above) →
      onLink' directory target (rest ++ tail) = .ok (.taken location))
    {directory : Location} {segments : List String}
    (leads : follow tree onLink directory (segments ++ [""]) = .ok (.taken above)) :
    follow other onLink' directory (segments ++ tail) = .ok (.taken location) := by
  induction segments generalizing directory with
  | nil =>
    cases leads
    exact onwards
  | cons segment rest ih =>
    rw [List.cons_append] at leads ⊢
    unfold follow at leads ⊢
    split at leads
    · next void =>
      rw [if_pos void]
      exact ih leads
    next notVoid =>
    rw [if_neg notVoid]
    split at leads
    · next up =>
      rw [if_pos up]
      exact ih leads
    next notUp =>
    rw [if_neg notUp]
    have more : (rest ++ [""]).isEmpty = false := by simp
    rw [more] at leads
    split at leads
    · cases leads
    · next found =>
      rw [keeps.entry found]
      exact ih leads
    · cases leads
    · next found =>
      rw [keeps.entry found]
      exact beyond leads

theorem Keeps.followLinks_append (keeps : Keeps tree other) {above location : Location} {tail : List String}
    (onwards : ∀ onLink, follow other onLink above tail = .ok (.taken location)) (links : Nat)
    {directory : Location} {segments : List String}
    (leads : followLinks tree links directory (segments ++ [""]) = .ok (.taken above)) :
    followLinks other links directory (segments ++ tail) = .ok (.taken location) := by
  induction links generalizing directory segments with
  | zero => exact keeps.follow_append (onwards _) (fun stops => by cases stops) leads
  | succ links ih =>
    refine keeps.follow_append (onwards _) (fun {directory target rest} further => ?_) leads
    rw [← List.append_assoc] at further ⊢
    exact ih further

theorem follow_void {tree : FileTree} {onLink : Location → Path → List String → Except Fault Place}
    {directory : Location} {segments : List String} (void : ∀ segment ∈ segments, segment = "") :
    follow tree onLink directory segments = .ok (.taken directory) := by
  induction segments with
  | nil => rfl
  | cons segment rest ih =>
    unfold follow
    rw [if_pos (by simp [void segment, Path.isVoid])]
    exact ih fun other mem => void other (List.mem_cons_of_mem _ mem)

/-- The segments of a path end in slashes behind those that do not. -/
theorem segments_eq (p : Path) : ∃ slashes, p.segments = withoutSlashes p ++ slashes ∧
    ∀ segment ∈ slashes, segment = "" := by
  refine ⟨(p.segments.reverse.takeWhile (· = "")).reverse, ?_, fun segment mem => ?_⟩
  · rw [withoutSlashes, ← List.reverse_append, List.takeWhile_append_dropWhile, List.reverse_reverse]
  · simpa using List.mem_takeWhile_imp (List.mem_reverse.mp mem)

theorem getLast?_withoutSlashes {name : String} (last : (withoutSlashes p).getLast? = some name) : name ≠ "" := by
  rw [withoutSlashes, List.getLast?_reverse] at last
  have stops := List.head?_dropWhile_not (· = "") p.segments.reverse
  rw [last] at stops
  simpa using stops

theorem keeps_setNode_directory {location : Location} (below : location ≠ []) (vacant : tree.node? location = none) :
    Keeps tree (tree.setNode location .directory) := by
  refine ⟨by simp, fun {other node} found => ?_, fun {other node} found => ?_⟩
  · have elsewhere : other ≠ location := by
      rintro rfl
      rw [vacant] at found
      cases found
    rw [node?_setNode _ below, if_neg elsewhere, found]
  · rw [node?_setNode _ below] at found
    split at found
    · cases found
      exact .inr rfl
    · exact .inl found

/-- A name in the directory above it, with slashes behind it. -/
theorem Keeps.locate_last (keeps : Keeps tree other) {front slashes : List String} {name : String} {directory : Location}
    (segments : p.segments = front ++ name :: slashes) (void : ∀ segment ∈ slashes, segment = "")
    (isName : Path.IsName name) (notNul : holdsNul p = false)
    (above : tree.locate (if front = [] then ⟨["."]⟩ else ⟨front ++ [""]⟩) = .ok directory)
    (there : other.node? (directory ++ [name]) = some .directory) : other.locate p = .ok (directory ++ [name]) := by
  have notVoid : name ≠ "" := by
    rintro rfl
    exact absurd isName.1 (by decide)
  have onwards onLink : follow other onLink directory (name :: slashes) = .ok (.taken (directory ++ [name])) := by
    unfold follow
    rw [if_neg (by simp [isName.1]), if_neg isName.2, there]
    exact follow_void void
  obtain ⟨_, _, leads⟩ := place_eq_ok_iff.mp (locate_eq_ok_iff.mp above)
  refine locate_eq_ok_iff.mpr (place_eq_ok_iff.mpr ⟨notNul, by simp [Path.isEmpty, segments, notVoid], ?_⟩)
  have absolute : Path.isAbsolute p = Path.isAbsolute ⟨front ++ name :: slashes⟩ := by
    rw [← segments]
  rw [keeps.workingDirectory, segments]
  -- A name alone is in the working directory, to which the path of the directory above it, a dot, leads.
  cases front with
  | nil =>
    have relative : Path.isAbsolute p = false := by
      rw [absolute]
      cases slashes <;> simp [Path.isAbsolute, notVoid]
    have here : start tree.workingDirectory p = directory := by
      rw [start, relative]
      cases leads
      rfl
    have stays : followLinks tree linkLimit directory ([] ++ [""]) = .ok (.taken directory) := rfl
    rw [here]
    exact keeps.followLinks_append onwards linkLimit stays
  | cons first rest =>
    have same : start tree.workingDirectory p = start tree.workingDirectory ⟨first :: rest ++ [""]⟩ := by
      rw [start, start, absolute, List.cons_append, List.cons_append, Path.isAbsolute_cons _ (by simp),
        Path.isAbsolute_cons _ (by simp)]
    rw [same]
    exact keeps.followLinks_append onwards _ leads

/-- A directory that is created takes a free location, and that is where its path leads. -/
theorem makeDirectory_eq_ok (done : tree.makeDirectory p = .ok made) :
    ∃ location, location ≠ [] ∧ tree.node? location = none ∧ made = tree.setNode location .directory ∧
      made.locate p = .ok location := by
  unfold makeDirectory at done
  split at done
  · cases done
  next notNul =>
  split at done
  · cases done
  dsimp only at done
  split at done
  · cases done
  next name last =>
  obtain ⟨directory, above, set⟩ := bind_eq_ok_iff.mp done
  split at set
  · cases set
  next free =>
  cases set
  simp only [Bool.or_eq_true, decide_eq_true_eq, not_or, Bool.not_eq_true, Option.isSome_eq_false_iff,
    Option.isNone_iff_eq_none] at free
  obtain ⟨⟨notDot, notUp⟩, vacant⟩ := free
  have below : directory ++ [name] ≠ [] := by simp
  refine ⟨directory ++ [name], below, vacant, rfl, ?_⟩
  obtain ⟨slashes, segments, void⟩ := segments_eq p
  obtain ⟨front, whole⟩ := List.getLast?_eq_some_iff.mp last
  have isName : Path.IsName name := ⟨by simp [Path.isVoid, notDot, getLast?_withoutSlashes last], notUp⟩
  rw [whole, List.append_assoc, List.singleton_append] at segments
  refine (keeps_setNode_directory below vacant).locate_last segments void isName (by simpa using notNul) ?_
    (by rw [node?_setNode tree below, if_pos rfl])
  rw [← above, whole, List.dropLast_concat]
  cases front <;> simp

theorem onlyCreates_makeDirectory (done : tree.makeDirectory p = .ok made) : OnlyCreates [p] tree made := by
  obtain ⟨location, below, vacant, rfl, leads⟩ := makeDirectory_eq_ok done
  refine ⟨workingDirectory_setNode .., fun other => ?_⟩
  rw [node?_setNode tree below]
  split
  · next here =>
    subst here
    exact .inr ⟨vacant, rfl, p, by simp, leads⟩
  · exact .inl rfl

theorem ensureDirectory_eq_ok (done : tree.ensureDirectory p = .ok made) :
    OnlyCreates [p] tree made ∧ made.isDirectory p = true := by
  unfold FileTree.ensureDirectory at done
  split at done
  · next new =>
    cases done
    obtain ⟨location, below, _, rfl, leads⟩ := makeDirectory_eq_ok new
    refine ⟨onlyCreates_makeDirectory new, isDirectory_iff.mpr ⟨location, leads, ?_⟩⟩
    rw [node?_setNode tree below, if_pos rfl]
  · split at done
    · next there =>
      cases done
      exact ⟨.refl _ tree, there⟩
    · cases done

theorem onlyCreates_makeChain (tree : FileTree) (paths : List Path) : OnlyCreates paths tree (tree.makeChain paths).2 := by
  induction paths generalizing tree with
  | nil => exact .refl _ tree
  | cons p above ih =>
    have here {tree made : FileTree} (done : tree.ensureDirectory p = .ok made) : OnlyCreates (p :: above) tree made :=
      (ensureDirectory_eq_ok done).1.mono (by simp)
    have ready := (ih tree).mono (List.subset_cons_self p above)
    unfold makeChain
    split
    · next done => exact here done
    · split
      · next same => rw [same] at ready; exact ready
      · next same =>
        rw [same] at ready
        split
        · next done => exact ready.trans (here done)
        · exact ready
    · exact .refl _ tree

theorem isDirectory_makeChain {above : List Path} (done : tree.makeChain (p :: above) = (.ok (), made)) :
    made.isDirectory p = true := by
  unfold makeChain at done
  split at done
  · next ensured =>
    cases done
    exact (ensureDirectory_eq_ok ensured).2
  · split at done
    · cases done
    · split at done
      · next ensured =>
        cases done
        exact (ensureDirectory_eq_ok ensured).2
      · cases done
  · cases done

end

end SolidityBuild.FileTree

namespace SolidityBuild.Artifact

open FileTree (OnlyCreates Keeps)

theorem onlyCreates_ensureDirectory (tree : FileTree) (directory : Path) (create : Bool) :
    OnlyCreates directory.ancestors tree (ensureDirectory tree directory create).2 := by
  unfold ensureDirectory
  split
  · exact .refl _ tree
  split
  · exact .refl _ tree
  split
  · exact .refl _ tree
  · have made := (tree.onlyCreates_makeChain (directory.ancestors.filter (!·.isEmpty))).mono (List.filter_subset_self _)
    unfold FileTree.makeDirectories
    split
    · next same => rw [same] at made; exact made
    · next same => rw [same] at made; exact made

/-- Making sure of directories creates only directories that their paths or paths above them lead to. -/
theorem onlyCreates_ensureDirectories (create : Bool) (directories : List Path) (tree : FileTree) :
    OnlyCreates (directories.flatMap Path.ancestors) tree (ensureDirectories create directories tree).2 := by
  induction directories generalizing tree with
  | nil => exact .refl _ tree
  | cons directory rest ih =>
    have here := (onlyCreates_ensureDirectory tree directory create).mono
      (List.subset_append_left directory.ancestors (rest.flatMap Path.ancestors))
    have later tree := (ih tree).mono (List.subset_append_right directory.ancestors (rest.flatMap Path.ancestors))
    unfold ensureDirectories
    split
    · next same => rw [same] at here; exact here.trans (later _)
    · exact here

theorem keeps_ensureDirectories (create : Bool) (directories : List Path) (tree : FileTree) :
    Keeps tree (ensureDirectories create directories tree).2 :=
  (onlyCreates_ensureDirectories create directories tree).keeps

/-! ## Directories in place -/

/-- Nothing has to be done for an output directory: it is there, or its path is empty and is not created. -/
def InPlace (create : Bool) (tree : FileTree) (directory : Path) : Prop :=
  tree.isDirectory directory = true ∨ create = true ∧ directory.isEmpty = true

theorem components_of_isEmpty {p : Path} (empty : p.isEmpty = true) : p.components = [] := by
  obtain ⟨segments⟩ := p
  simp only [Path.isEmpty, Bool.and_eq_true, decide_eq_true_eq] at empty
  obtain ⟨void, short⟩ := empty
  cases segments with
  | nil => rfl
  | cons segment rest =>
    have alone : rest = [] := by simpa using short
    have same : segment = "" := by simpa [alone] using void
    rw [alone, same]
    rfl

theorem chain_of_isEmpty {p : Path} (empty : p.isEmpty = true) : p.ancestors.filter (!·.isEmpty) = [] := by
  simp [Path.ancestors, components_of_isEmpty empty, empty]

theorem locate_of_isEmpty (tree : FileTree) {p : Path} (empty : p.isEmpty = true) : ∃ fault, tree.locate p = .error fault := by
  cases found : tree.locate p with
  | error fault => exact ⟨fault, rfl⟩
  | ok location =>
    obtain ⟨_, notEmpty, _⟩ := FileTree.place_eq_ok_iff.mp (FileTree.locate_eq_ok_iff.mp found)
    rw [empty] at notEmpty
    cases notEmpty

variable {create : Bool} {tree made other : FileTree} {directory : Path} {directories : List Path}

theorem InPlace.ensureDirectory_eq (inPlace : InPlace create tree directory) :
    ensureDirectory tree directory create = (.ok (), tree) := by
  unfold ensureDirectory
  rcases inPlace with there | ⟨rfl, empty⟩
  · rw [if_pos there]
  · obtain ⟨fault, missing⟩ := locate_of_isEmpty tree empty
    simp [FileTree.isDirectory, FileTree.isPresent, FileTree.target?, missing, FileTree.makeDirectories,
      chain_of_isEmpty empty, FileTree.makeChain]

theorem inPlace_ensureDirectory (done : ensureDirectory tree directory create = (.ok (), made)) :
    InPlace create made directory := by
  unfold ensureDirectory at done
  split at done
  · next there => cases done; exact .inl there
  split at done
  · cases done
  split at done
  · cases done
  next mayCreate =>
  split at done
  · next chain =>
    cases done
    cases empty : directory.isEmpty with
    | true => exact .inr ⟨by simpa using mayCreate, empty⟩
    | false =>
      have first : directory.ancestors.filter (!·.isEmpty) = directory :: _ := List.filter_cons_of_pos (by simp [empty])
      unfold FileTree.makeDirectories at chain
      rw [first] at chain
      exact .inl (FileTree.isDirectory_makeChain chain)
  · cases done

/-- Once it has succeeded, making sure of the output directories changes nothing. -/
theorem ensureDirectories_eq (inPlace : ∀ directory ∈ directories, InPlace create tree directory) :
    ensureDirectories create directories tree = (.ok (), tree) := by
  induction directories with
  | nil => rfl
  | cons directory rest ih =>
    unfold ensureDirectories
    rw [(inPlace directory (by simp)).ensureDirectory_eq]
    exact ih fun other mem => inPlace other (List.mem_cons_of_mem _ mem)

theorem inPlace_ensureDirectories (done : ensureDirectories create directories tree = (.ok (), made)) :
    ∀ directory ∈ directories, InPlace create made directory := by
  induction directories generalizing tree with
  | nil => exact fun _ mem => by cases mem
  | cons first rest ih =>
    unfold ensureDirectories at done
    split at done
    · next middle here =>
      intro directory mem
      rcases List.mem_cons.mp mem with rfl | later
      · have keeps := keeps_ensureDirectories create rest middle
        rw [done] at keeps
        exact (inPlace_ensureDirectory here).imp_left keeps.covers.isDirectory
      · exact ih done directory later
    · next never => exact absurd done (never made)

end SolidityBuild.Artifact
