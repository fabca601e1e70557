import SolidityBuild.Proofs.OutputDirectories

/-!
# Writing outputs

A write puts a file where its path leads and changes nothing else, and no path leads elsewhere
afterwards. So after any series of writes every location has the file that was written there last, or what
stood there before (`Wrote.node?_eq`). A build writes all of its files or, when a write fails, some of
them (`wrote_writeAll`).
-/

namespace SolidityBuild.FileTree

/-! ## One write -/

/-- A write puts a file at the location of its path, where there was a file or nothing. -/
theorem write_eq_ok {tree written : FileTree} {p : Path} {content : Content}
    (done : tree.write p content = .ok written) :
    ∃ location, tree.location? p = some location ∧ location ≠ [] ∧ tree.passage? location = none ∧
      written = tree.setNode location (.file content) := by
  unfold write at done
  obtain ⟨place, leads, set⟩ := bind_eq_ok_iff.mp done
  have location : tree.location? p = some place.location := by simp [location?, ending, leads, Except.toOption]
  cases place with
  | free directory name =>
    cases set
    exact ⟨_, location, by simp [Place.location], by simp [passage?, Place.location, node?_of_place_free leads], rfl⟩
  | taken taken =>
    dsimp only at set
    split at set
    · next old entry =>
      cases set
      refine ⟨_, location, ?_, by simp [passage?, Place.location, entry], rfl⟩
      rintro root
      simp only [Place.location] at root
      simp [root, node?] at entry
    · cases set

theorem samePassages_setNode {tree : FileTree} {location : Location} (below : location ≠ [])
    (vacant : tree.passage? location = none) (content : Content) :
    SamePassages tree (tree.setNode location (.file content)) := by
  refine ⟨by simp, fun other => ?_⟩
  by_cases same : other = location
  · subst same
    rw [vacant]
    simp [passage?, node?_setNode tree below]
  · simp [passage?, node?_setNode tree below, same]

end SolidityBuild.FileTree

namespace SolidityBuild.Artifact

open FileTree (Covers SamePassages)

/-! ## Series of writes -/

/-- A tree after the writes of some files, all of which succeeded. -/
inductive Wrote : FileTree → List OutputFile → FileTree → Prop
  | done (tree : FileTree) : Wrote tree [] tree
  | write {tree written after : FileTree} {file : OutputFile} {rest : List OutputFile} :
      writeFile tree file = .ok written → Wrote written rest after → Wrote tree (file :: rest) after

/-- One write: no path leads elsewhere, and only the location of the file changes. -/
theorem writeFile_eq_ok {tree written : FileTree} {file : OutputFile} (done : writeFile tree file = .ok written) :
    SamePassages tree written ∧ ∃ place, tree.location? file.path = some place ∧
      ∀ location, written.node? location =
        if location = place then some (.file (.text file.contents)) else tree.node? location := by
  unfold writeFile at done
  split at done
  · next set =>
    cases done
    obtain ⟨place, leads, below, vacant, same⟩ := FileTree.write_eq_ok set
    subst same
    exact ⟨FileTree.samePassages_setNode below vacant _, place, leads, FileTree.node?_setNode tree below _⟩
  · cases done

theorem Wrote.samePassages {tree after : FileTree} {files : List OutputFile} (wrote : Wrote tree files after) :
    SamePassages tree after := by
  induction wrote with
  | done tree => exact .refl tree
  | write first _ ih => exact (writeFile_eq_ok first).1.trans ih

/-- The file that was the last to be written at a location. -/
def lastAt (tree : FileTree) (files : List OutputFile) (location : Location) : Option OutputFile :=
  files.reverse.find? fun file => tree.location? file.path = some location

theorem lastAt_eq_none_iff {tree : FileTree} {files : List OutputFile} {location : Location} :
    lastAt tree files location = none ↔ ∀ file ∈ files, tree.location? file.path ≠ some location := by
  simp [lastAt]

theorem mem_of_lastAt {tree : FileTree} {files : List OutputFile} {location : Location} {file : OutputFile}
    (last : lastAt tree files location = some file) : file ∈ files ∧ tree.location? file.path = some location :=
  ⟨List.mem_reverse.mp (List.mem_of_find?_eq_some last), by simpa using List.find?_some last⟩

theorem Wrote.node?_eq {tree after : FileTree} {files : List OutputFile} (wrote : Wrote tree files after)
    (location : Location) :
    after.node? location =
      match lastAt tree files location with
      | some file => some (.file (.text file.contents))
      | none => tree.node? location := by
  induction wrote with
  | done tree => rfl
  | @write tree written after file rest first _ ih =>
    obtain ⟨same, place, leads, entry⟩ := writeFile_eq_ok first
    have later : lastAt written rest location = lastAt tree rest location := by
      simp only [lastAt, same.location?_eq]
    have cons : lastAt tree (file :: rest) location =
        (lastAt tree rest location <|> if place = location then some file else none) := by
      rw [lastAt, List.reverse_cons, List.find?_append]
      simp only [lastAt, List.find?_cons, List.find?_nil, leads, Option.some.injEq]
      by_cases here : place = location <;> simp [here]
    rw [ih, later, entry, cons]
    cases lastAt tree rest location with
    | some last => rfl
    | none =>
      by_cases here : location = place
      · simp [here]
      · simp [here, Ne.symm here]

/-- After some writes everything is there that was there before, though files may read differently. -/
theorem Wrote.covers {tree after : FileTree} {files : List OutputFile} (wrote : Wrote tree files after) :
    Covers tree after := by
  have same := wrote.samePassages
  have passage {location : Location} {node : Node} (found : tree.passage? location = some node) :
      after.node? location = some node := by
    rw [← same.passage] at found
    unfold FileTree.passage? at found
    split at found
    · cases found
    · exact found
  refine ⟨same.workingDirectory, fun found => passage ?_, fun found => passage ?_, fun {location content} found => ?_⟩
  · rw [FileTree.passage?, found]
  · rw [FileTree.passage?, found]
  · rw [wrote.node?_eq]
    cases lastAt tree files location with
    | some file => exact ⟨_, rfl⟩
    | none => exact ⟨content, found⟩

theorem Wrote.length_le {tree after : FileTree} {files : List OutputFile} (wrote : Wrote tree files after) :
    tree.nodes.length ≤ after.nodes.length := by
  induction wrote with
  | done tree => exact Nat.le_refl _
  | @write tree written after file rest first _ ih =>
    refine Nat.le_trans ?_ ih
    unfold writeFile at first
    split at first
    · next set =>
      cases first
      obtain ⟨location, _, _, _, rfl⟩ := FileTree.write_eq_ok set
      unfold FileTree.setNode
      split <;> simp [FileTree.replaceAt]
    · cases first

/-- A path reads as before if none of the files was written where it leads. -/
theorem Wrote.readText_of_elsewhere {tree after : FileTree} {files : List OutputFile} (wrote : Wrote tree files after)
    {p : Path}
    (elsewhere : ∀ file ∈ files, ∀ location, tree.location? p = some location → tree.location? file.path ≠ some location)
    {text : String} : after.readText p = .ok text ↔ tree.readText p = .ok text := by
  have unchanged : ∀ location, tree.location? p = some location → after.node? location = tree.node? location := by
    intro location leads
    have unwritten : lastAt tree files location = none :=
      lastAt_eq_none_iff.mpr fun file mem => elsewhere file mem location leads
    rw [wrote.node?_eq, unwritten]
  rw [FileTree.readText_eq_ok_iff, FileTree.readText_eq_ok_iff, wrote.samePassages.location?_eq]
  constructor
  · rintro ⟨location, leads, entry⟩
    exact ⟨location, leads, by rw [← unchanged location leads, entry]⟩
  · rintro ⟨location, leads, entry⟩
    exact ⟨location, leads, by rw [unchanged location leads, entry]⟩

/-- What was written has a location. -/
theorem Wrote.location?_of_mem {tree after : FileTree} {files : List OutputFile} (wrote : Wrote tree files after)
    {file : OutputFile} (mem : file ∈ files) : ∃ location, tree.location? file.path = some location := by
  induction wrote with
  | done tree => cases mem
  | write first _ ih =>
    obtain ⟨same, place, leads, _⟩ := writeFile_eq_ok first
    rcases List.mem_cons.mp mem with rfl | later
    · exact ⟨place, leads⟩
    · rw [← same.location?_eq]
      exact ih later

/-- A path reads as the file that was written last where it leads. -/
theorem Wrote.readText_of_lastAt {tree after : FileTree} {files : List OutputFile} (wrote : Wrote tree files after)
    {p : Path} {location : Location} (leads : tree.location? p = some location) {file : OutputFile}
    (last : lastAt tree files location = some file) : after.readText p = .ok file.contents := by
  refine FileTree.readText_eq_ok_iff.mpr ⟨location, ?_, ?_⟩
  · rw [wrote.samePassages.location?_eq, leads]
  · rw [wrote.node?_eq, last]

/-- A file that was written reads as its contents if no other one was written in its place. -/
theorem Wrote.readText_of_mem {tree after : FileTree} {files : List OutputFile} (wrote : Wrote tree files after)
    {file : OutputFile} (mem : file ∈ files)
    (alone : ∀ other ∈ files, ∀ location, tree.location? file.path = some location →
      tree.location? other.path = some location → other.contents = file.contents) :
    after.readText file.path = .ok file.contents := by
  obtain ⟨location, leads⟩ := wrote.location?_of_mem mem
  cases found : lastAt tree files location with
  | none => exact absurd leads (lastAt_eq_none_iff.mp found file mem)
  | some last =>
    obtain ⟨isFile, there⟩ := mem_of_lastAt found
    rw [← alone last isFile location leads there]
    exact wrote.readText_of_lastAt leads found

/-- A build writes all of its files, or some of them in their order and reports a failure. -/
theorem wrote_writeAll (tree : FileTree) (files : List OutputFile) :
    ∃ done, done.Sublist files ∧ Wrote tree done (writeAll tree files).2 ∧
      ((writeAll tree files).1 = .ok () → done = files) := by
  induction files generalizing tree with
  | nil => exact ⟨[], .refl _, .done tree, fun _ => rfl⟩
  | cons file rest ih =>
    unfold writeAll
    split
    · next written first =>
      obtain ⟨done, part, wrote, all⟩ := ih written
      exact ⟨file :: done, part.cons_cons file, .write first wrote, fun ok => by rw [all ok]⟩
    · next fault =>
      obtain ⟨done, part, wrote, _⟩ := ih tree
      exact ⟨done, part.cons file, wrote, fun ok => by cases ok⟩

end SolidityBuild.Artifact
