import SolidityBuild.Proofs.AliasCache

/-!
# Canonical paths

A path that leads to an entry does so through directories, once its links are followed. So the canonical
path of a file leads to the file itself, without links on the way (`Rooted.exists_location`). The text of a
path spells its segments, and a file has a key of its own: files with the same key below a base
directory, inside or outside of it, are at the same location (`Location.eq_of_key`).
-/

namespace SolidityBuild

namespace FileTree

/-! ## Directories on the way -/

/-- A directory all of whose parents are directories. -/
def IsOpen (tree : FileTree) (directory : Location) : Prop :=
  ∀ above, above <+: directory → tree.node? above = some .directory

/-- The working directory is there, and its names can name entries. -/
structure Rooted (tree : FileTree) : Prop where
  proper : tree.workingDirectory.Proper
  isOpen : tree.IsOpen tree.workingDirectory

/-- A directory, or a file in a directory, that is reached from the root through directories. -/
inductive Stands (tree : FileTree) : Location → Prop
  | directory {directory : Location} : tree.IsOpen directory → Stands tree directory
  | file {directory : Location} {name : String} {content : Content} :
      tree.IsOpen directory → tree.node? (directory ++ [name]) = some (.file content) →
        Stands tree (directory ++ [name])

section

variable {tree other : FileTree} {directory location : Location}

theorem isOpen_root (tree : FileTree) : tree.IsOpen [] := by
  intro above part
  rw [List.prefix_nil.mp part]
  rfl

theorem IsOpen.above (isOpen : tree.IsOpen location) (part : directory <+: location) : tree.IsOpen directory :=
  fun above inside => isOpen above (inside.trans part)

theorem IsOpen.concat (isOpen : tree.IsOpen directory) {name : String}
    (there : tree.node? (directory ++ [name]) = some .directory) : tree.IsOpen (directory ++ [name]) := by
  intro above part
  rcases List.prefix_concat_iff.mp part with rfl | inside
  · exact there
  · exact isOpen above inside

theorem Keeps.isOpen (keeps : Keeps tree other) (isOpen : tree.IsOpen directory) : other.IsOpen directory :=
  fun above part => keeps.entry (isOpen above part)

theorem Keeps.rooted (keeps : Keeps tree other) (rooted : tree.Rooted) : other.Rooted where
  proper := by rw [keeps.workingDirectory]; exact rooted.proper
  isOpen := by rw [keeps.workingDirectory]; exact keeps.isOpen rooted.isOpen

theorem follow_stands {onLink : Location → Path → List String → Except Fault Place}
    (beyond : ∀ {directory target rest}, tree.IsOpen directory → onLink directory target rest = .ok (.taken location) →
      tree.Stands location)
    {segments : List String} (isOpen : tree.IsOpen directory)
    (leads : follow tree onLink directory segments = .ok (.taken location)) : tree.Stands location := by
  induction segments generalizing directory with
  | nil =>
    cases leads
    exact .directory isOpen
  | cons segment rest ih =>
    unfold follow at leads
    split at leads
    · exact ih isOpen leads
    split at leads
    · exact ih (isOpen.above (List.dropLast_prefix directory)) leads
    split at leads
    · split at leads <;> cases leads
    · next there => exact ih (isOpen.concat there) leads
    · next there =>
      split at leads
      · cases leads
        exact .file isOpen there
      · cases leads
    · exact beyond isOpen leads

/-- Where a path leads, there is no link on the way. -/
theorem Rooted.stands (rooted : tree.Rooted) {p : Path} (found : tree.locate p = .ok location) :
    tree.Stands location := by
  have start {directory : Location} (target : Path) (isOpen : tree.IsOpen directory) :
      tree.IsOpen (start directory target) := by
    unfold FileTree.start
    split
    · exact isOpen_root tree
    · exact isOpen
  have beyond : ∀ links {directory segments}, tree.IsOpen directory →
      followLinks tree links directory segments = .ok (.taken location) → tree.Stands location := by
    intro links
    induction links with
    | zero => exact follow_stands fun _ stops => by cases stops
    | succ links ih => exact follow_stands fun isOpen => ih (start _ isOpen)
  exact beyond _ (start p rooted.isOpen) (place_eq_ok_iff.mp (locate_eq_ok_iff.mp found)).2.2

/-! ## Paths of locations -/

theorem follow_names {onLink : Location → Path → List String → Except Fault Place} {names rest : List String}
    (proper : ∀ name ∈ names, Path.IsName name) (isOpen : tree.IsOpen (directory ++ names)) :
    follow tree onLink directory (names ++ rest) = follow tree onLink (directory ++ names) rest := by
  induction names generalizing directory with
  | nil => simp
  | cons name names ih =>
    have isName := proper name (by simp)
    have behind : directory ++ name :: names = directory ++ [name] ++ names := by simp
    have there : tree.node? (directory ++ [name]) = some .directory :=
      isOpen _ (by rw [behind]; exact List.prefix_append ..)
    rw [behind] at isOpen ⊢
    rw [List.cons_append, follow, isName.1, if_neg Bool.false_ne_true, if_neg isName.2, there]
    exact ih (fun other mem => proper other (List.mem_cons_of_mem _ mem)) isOpen

theorem segments_path {location : Location} (notRoot : location ≠ []) : location.path.segments = "" :: location := by
  cases location with
  | nil => exact absurd rfl notRoot
  | cons name rest => simp [Location.path, Path.ofComponents, Path.Component.segment, Function.comp_def]

theorem follow_path {onLink : Location → Path → List String → Except Fault Place} (proper : location.Proper)
    (stands : tree.Stands location) :
    follow tree onLink [] location.path.segments = .ok (.taken location) := by
  have root (segments : List String) : follow tree onLink [] ("" :: segments) = follow tree onLink [] segments := rfl
  cases stands with
  | directory isOpen =>
    cases location with
    | nil => rfl
    | cons name rest =>
      have walked : follow tree onLink [] ((name :: rest) ++ []) = follow tree onLink ([] ++ name :: rest) [] :=
        follow_names proper isOpen
      rw [List.append_nil] at walked
      rw [segments_path (by simp), root, walked]
      rfl
  | @file directory name content isOpen there =>
    have isName := proper name (by simp)
    have above : ∀ other ∈ directory, Path.IsName other := fun other mem => proper other (by simp [mem])
    have walked : follow tree onLink [] (directory ++ [name]) = follow tree onLink ([] ++ directory) [name] :=
      follow_names above isOpen
    rw [segments_path (by simp), root, walked, List.nil_append, follow, isName.1, if_neg Bool.false_ne_true,
      if_neg isName.2, there]
    rfl

/-- The path of a location leads back to it. -/
theorem Stands.locate_path (stands : tree.Stands location) (proper : location.Proper)
    (notNul : holdsNul location.path = false) : tree.locate location.path = .ok location := by
  have absolute : location.path.isAbsolute = true ∧ location.path.isEmpty = false := by
    cases location with
    | nil => decide
    | cons name rest => simp [Path.isAbsolute, Path.isEmpty, segments_path]
  refine locate_eq_ok_iff.mpr (place_eq_ok_iff.mpr ⟨notNul, absolute.2, ?_⟩)
  rw [start, if_pos absolute.1]
  exact follow_path proper stands

/-- A file is an entry of its own. -/
theorem exists_entry {content : Content} (there : tree.node? location = some (.file content)) :
    location ≠ [] ∧ ∃ entry ∈ tree.nodes, entry.1 = location := by
  unfold node? at there
  split at there
  · cases there
  next notRoot =>
  obtain ⟨entry, mem, same⟩ := List.lookup_isSome_iff.mp (by rw [there]; rfl)
  exact ⟨fun root => notRoot (List.isEmpty_iff.mpr root), entry, mem, (eq_of_beq same).symm⟩

/-- The canonical path of a file is the path of the location at which the file is. -/
theorem Rooted.exists_location (rooted : tree.Rooted) {p canonical : Path} {text : String}
    (found : tree.canonical p = .ok canonical) (reads : tree.readText canonical = .ok text) :
    ∃ location : Location, location.Proper ∧ canonical = location.path ∧ tree.canonical canonical = .ok canonical ∧
      tree.node? location = some (.file (.text text)) := by
  obtain ⟨location, leads, rfl⟩ := map_eq_ok_iff.mp found
  have proper := locate_proper rooted.proper leads
  obtain ⟨place, leads', _⟩ := bind_eq_ok_iff.mp reads
  have notNul := (place_eq_ok_iff.mp (locate_eq_ok_iff.mp leads')).1
  have again := (rooted.stands leads).locate_path proper notNul
  obtain ⟨place, leads', entry⟩ := readText_eq_ok_iff.mp reads
  have here : tree.location? location.path = some location := by
    simp [location?, ending, locate_eq_ok_iff.mp again, Except.toOption, Place.location]
  rw [here] at leads'
  cases leads'
  exact ⟨location, proper, rfl, map_eq_ok_iff.mpr ⟨location, again, rfl⟩, entry⟩

end

end FileTree

/-! ## Keys -/

namespace Path

/-- A text that is spelled by segments has them. -/
theorem splitSlashes_intercalate {segments : List String} (nonempty : segments ≠ [])
    (plain : ∀ segment ∈ segments, '/' ∉ segment.toList) :
    splitSlashes ("/".intercalate segments).toList = segments.map String.toList := by
  induction segments with
  | nil => exact absurd rfl nonempty
  | cons segment rest ih =>
    have front {cs : List Char} (cs' : List Char) (plain : '/' ∉ cs) :
        splitSlashes (cs ++ '/' :: cs') = cs :: splitSlashes cs' := by
      induction cs with
      | nil => rfl
      | cons c cs ih =>
        have other : c ≠ '/' := fun same => plain (by simp [same])
        obtain ⟨first, more, split, whole⟩ := splitSlashes_cons other (cs ++ '/' :: cs')
        rw [ih fun mem => plain (List.mem_cons_of_mem _ mem)] at split
        cases split
        exact whole
    cases rest with
    | nil => simpa using splitSlashes_of_plain (plain segment (by simp))
    | cons next more =>
      have others := ih (by simp) fun other mem => plain other (List.mem_cons_of_mem _ mem)
      have text : ("/".intercalate (segment :: next :: more)).toList =
          segment.toList ++ '/' :: ("/".intercalate (next :: more)).toList := by
        rw [String.intercalate_cons_cons, String.toList_append, String.toList_append]
        simp
      rw [text, front _ (plain segment (by simp)), others]
      rfl

/-- The text of a path tells its segments. -/
theorem ofText_text {p : Path} (nonempty : p.segments ≠ []) (plain : ∀ segment ∈ p.segments, '/' ∉ segment.toList) :
    ofText p.text = p := by
  unfold ofText text
  rw [splitSlashes_intercalate nonempty plain, List.map_map]
  simp [Function.comp_def, String.ofList_toList]

end Path

namespace Location

/-- The names of a location can name entries and spell no path themselves. -/
def Plain (location : Location) : Prop := ∀ name ∈ location, Path.IsName name ∧ '/' ∉ name.toList

variable {location other : Location}

theorem Plain.proper (plain : location.Plain) : location.Proper := fun name mem => (plain name mem).1

theorem dropSegments_eq (proper : location.Proper) (count : Nat) :
    Path.dropSegments count location = location.drop count := by
  induction location generalizing count with
  | nil => cases count <;> rfl
  | cons name rest ih =>
    cases count with
    | zero => rfl
    | succ count =>
      have isName := (proper name (by simp)).1
      rw [Path.dropSegments, isName, if_neg Bool.false_ne_true, List.drop_succ_cons]
      exact ih (fun other mem => proper other (List.mem_cons_of_mem _ mem)) count

theorem dropWhile_isVoid {names : List String} (proper : ∀ name ∈ names, Path.IsName name) :
    names.dropWhile Path.isVoid = names := by
  cases names with
  | nil => rfl
  | cons name rest => rw [List.dropWhile_cons, (proper name (by simp)).1, if_neg Bool.false_ne_true]

theorem trimSegments_eq {names : List String} (proper : ∀ name ∈ names, Path.IsName name) :
    Path.trimSegments names = names := by
  have reversed : ∀ name ∈ names.reverse, Path.IsName name := fun name mem => proper name (List.mem_reverse.mp mem)
  rw [Path.trimSegments, dropWhile_isVoid proper, dropWhile_isVoid reversed, List.reverse_reverse]

/-- The key of a file outside of a directory is its path, and inside of it what follows the directory. -/
theorem key_cases (proper : location.Proper) (notRoot : location ≠ []) (base : Path) :
    location.path.key base = location.path.text ∨
      ∃ above inside : Location, inside ≠ [] ∧ location = above ++ inside ∧
        base.components = .root :: above.map .name ∧ location.path.key base = (⟨inside⟩ : Path).text := by
  have segments := FileTree.segments_path notRoot
  unfold Path.key Path.below?
  rw [components_path proper]
  by_cases within : base.components.isPrefixOf (.root :: location.map .name) = true
  swap
  · rw [if_neg within]
    exact .inl rfl
  rw [if_pos within]
  have part := List.isPrefixOf_iff_prefix.mp within
  generalize base.components = components at part ⊢
  cases components with
  | nil =>
    -- The empty directory is above everything; the last segment is a name and stays.
    left
    have last : ("" :: location).reverse.dropWhile Path.isVoid = ("" :: location).reverse := by
      obtain ⟨front, name, rfl⟩ := List.eq_nil_or_concat location |>.resolve_left notRoot
      have isName := (proper name (by simp)).1
      simp [isName]
    simp only [List.length_nil, segments, last, List.reverse_reverse]
    split
    · rfl
    · rw [Path.text, Path.text, segments]
  | cons first names =>
    obtain ⟨rfl, ahead⟩ := List.cons_prefix_cons.mp part
    have above : names = (location.take names.length).map .name := by
      have taken := List.prefix_iff_eq_take.mp ahead
      rwa [← List.map_take] at taken
    obtain ⟨name, rest, rfl⟩ := List.exists_cons_of_ne_nil notRoot
    have behind : ∀ other ∈ (name :: rest).drop names.length, Path.IsName other :=
      fun other mem => proper other (List.mem_of_mem_drop mem)
    simp only [List.length_cons, segments, dropSegments_eq proper, trimSegments_eq behind]
    split
    · exact .inl rfl
    · next notEmpty =>
      refine .inr ⟨(name :: rest).take names.length, (name :: rest).drop names.length, ?_,
        (List.take_append_drop ..).symm, by rw [← above], rfl⟩
      intro all
      rw [all] at notEmpty
      exact notEmpty rfl

/-- Files with one key are at one location. -/
theorem eq_of_key (plain : location.Plain) (plain' : other.Plain) (notRoot : location ≠ []) (notRoot' : other ≠ [])
    (base : Path) (same : location.path.key base = other.path.key base) : location = other := by
  have slashes {location : Location} (plain : location.Plain) (notRoot : location ≠ []) :
      ∀ segment ∈ location.path.segments, '/' ∉ segment.toList := by
    rw [FileTree.segments_path notRoot]
    intro segment mem
    rcases List.mem_cons.mp mem with rfl | inside
    · decide
    · exact (plain segment inside).2
  have whole {location : Location} (plain : location.Plain) (notRoot : location ≠ []) :
      Path.ofText location.path.text = ⟨"" :: location⟩ := by
    have segments := FileTree.segments_path notRoot
    rw [Path.ofText_text (by simp [segments]) (slashes plain notRoot)]
    exact congrArg Path.mk segments
  have part {above inside : Location} (plain : (above ++ inside : Location).Plain) (nonempty : inside ≠ []) :
      Path.ofText (⟨inside⟩ : Path).text = ⟨inside⟩ :=
    Path.ofText_text nonempty fun segment mem => (plain segment (List.mem_append_right _ mem)).2
  -- A path starts with a slash, and what follows a directory does not.
  have apart {location above inside : Location} (plain : location.Plain) (notRoot : location ≠ [])
      (plain' : (above ++ inside : Location).Plain) (nonempty : inside ≠ [])
      (same : location.path.text = (⟨inside⟩ : Path).text) : False := by
    have segments : (⟨"" :: location⟩ : Path) = ⟨inside⟩ := by rw [← whole plain notRoot, same, part plain' nonempty]
    have first : "" ∈ inside := by simp [← Path.mk.inj segments]
    have isName := plain' _ (List.mem_append_right above first)
    exact absurd isName.1.1 (by decide)
  rcases key_cases plain.proper notRoot base with key | ⟨above, inside, deeper, rfl, base₁, key⟩
  · rcases key_cases plain'.proper notRoot' base with key' | ⟨above', inside', deeper', rfl, _, key'⟩
    · rw [key, key'] at same
      have segments : (⟨"" :: location⟩ : Path) = ⟨"" :: other⟩ := by rw [← whole plain notRoot, same, whole plain' notRoot']
      simpa using segments
    · rw [key, key'] at same
      exact (apart plain notRoot plain' deeper' same).elim
  · rcases key_cases plain'.proper notRoot' base with key' | ⟨above', inside', deeper', rfl, base₂, key'⟩
    · rw [key, key'] at same
      exact (apart plain' notRoot' plain deeper same.symm).elim
    · rw [key, key'] at same
      have equal : (⟨inside⟩ : Path) = ⟨inside'⟩ := by rw [← part plain deeper, same, part plain' deeper']
      rw [base₁] at base₂
      have names : above.map Path.Component.name = above'.map .name := (List.cons.inj base₂).2
      rw [List.map_injective_iff.mpr (fun _ _ same => Path.Component.name.inj same) names, Path.mk.inj equal]

end Location

end SolidityBuild
