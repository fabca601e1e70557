import SolidityBuild.Discovery
import SolidityBuild.Proofs.CanonicalPaths
import SolidityBuild.Proofs.GlobDirectories
import SolidityBuild.Proofs.PathOrder
import SolidityBuild.Proofs.Walks
import Mathlib.Data.List.TakeWhile

/-!
# The files that patterns select

A pattern is cut in front of its first component with a mark: the names up to there are a directory, and the rest is
matched below it. For relative patterns this is the same as matching the whole pattern (`discover_relative`), unless
the base directory has a mark in its name: then the pattern starts with that name (`mem_select_of_marked_base`).
-/

namespace SolidityBuild

namespace Path

/-! ## Pieces between slashes -/

theorem slash_not_mem_splitSlashes {cs piece : List Char} (mem : piece ∈ splitSlashes cs) :
    '/' ∉ piece ∧ ∀ c ∈ piece, c ∈ cs := by
  induction cs generalizing piece with
  | nil =>
    cases List.mem_singleton.mp mem
    simp
  | cons c rest ih =>
    by_cases isSlash : c = '/'
    · subst isSlash
      rcases List.mem_cons.mp mem with rfl | behind
      · simp
      · exact ⟨(ih behind).1, fun c inPiece => List.mem_cons_of_mem _ ((ih behind).2 c inPiece)⟩
    · obtain ⟨first, more, split, whole⟩ := splitSlashes_cons isSlash rest
      rw [whole] at mem
      rw [split] at ih
      rcases List.mem_cons.mp mem with rfl | behind
      · have here := ih (List.mem_cons_self (a := first))
        simp only [List.mem_cons, not_or]
        exact ⟨⟨fun same => isSlash same.symm, here.1⟩, fun d inPiece => inPiece.imp_right (here.2 d)⟩
      · have there := ih (List.mem_cons_of_mem _ behind)
        exact ⟨there.1, fun c inPiece => List.mem_cons_of_mem _ (there.2 c inPiece)⟩

end Path

namespace Discovery

/-! ## Patterns -/

/-- The path that a pattern spells without any number of `./` at its front. -/
def trimmed (text : String) : Path := .ofText (String.ofList (Text.dropAll (Text.word "./".toList) text.toList))

/-- The components of a pattern, without empty ones and `.`. -/
def names (text : String) : List String := (Path.ofText text).segments.filter (!Path.isVoid ·)

/-- A pattern without empty components and `.`. -/
def plain (text : String) : String := "/".intercalate (names text)

def isUnmarked (name : String) : Bool := !isMarked (.name name)

/-- The components in front of the first one with a mark. -/
def literalNames (text : String) : List String := (names text).takeWhile isUnmarked

/-- The path of names below a directory. -/
def below (base : Path) (names : List String) : Path := .ofComponents (base.components ++ names.map .name)

/-- What is taken from the front of a pattern is no name. -/
theorem names_trimmed (text : String) : (trimmed text).segments.filter (!Path.isVoid ·) = names text := by
  suffices general : ∀ cs : List Char,
      ((Path.splitSlashes (Text.dropAll (Text.word "./".toList) cs)).map String.ofList).filter (!Path.isVoid ·) =
        ((Path.splitSlashes cs).map String.ofList).filter (!Path.isVoid ·) by
    simpa [trimmed, names, Path.ofText] using general text.toList
  intro cs
  fun_induction Text.dropAll (Text.word "./".toList) cs with
  | case1 cs _ rest _ read ih =>
    obtain ⟨left, begins, shorter⟩ := Option.bind_eq_some_iff.mp read
    have split := Text.eq_append_of_isPrefixOf? begins
    have same : left = rest := by
      unfold Text.shorter? at shorter
      split at shorter
      · simpa using shorter
      · cases shorter
    have front : Path.splitSlashes ("./".toList ++ rest) = ['.'] :: Path.splitSlashes rest := rfl
    have void : Path.isVoid (String.ofList ['.']) = true := by decide
    rw [ih, split, same, front, List.map_cons, List.filter_cons, void]
    rfl
  | case2 cs read => rfl

/-- A pattern below a directory has the components of the directory, and then its names. -/
theorem components_patternOf {base : Path} {text : String} (absolute : base.isAbsolute = true)
    (relative : (trimmed text).isAbsolute = false) (noParent : ".." ∉ names text) :
    (patternOf base text).components = base.components ++ (names text).map .name := by
  rw [← names_trimmed] at noParent ⊢
  rw [← Path.filterMap_component? noParent]
  exact Path.components_join absolute relative (Path.segments_ofText_ne_nil _)

/-- A pattern that can be read, and that leads from a directory to what is below it. -/
structure Relative (text : String) : Prop where
  trimmed : (trimmed text).isAbsolute = false
  noParent : ".." ∉ names text
  noEscape : '\\' ∉ text.toList
  valid : ∃ glob, Glob.parse (plain text) = .ok glob

/-- The paths that a pattern selects below a directory. -/
inductive Selects (tree : FileTree) (base : Path) (text : String) : Path → Prop
  /-- Without marks, the file of these names. -/
  | file (literal : literalNames text = names text)
      (isFile : tree.isFile (tree.absolute (below base (names text))) = true) :
      Selects tree base text (tree.absolute (below base (names text)))
  /-- With marks, the files that are met below the names in front of these, if the whole pattern matches. -/
  | found {whole : Glob.Pattern} {more : List String} (marked : literalNames text ≠ names text)
      (isDirectory : tree.isDirectory (below base (literalNames text)) = true)
      (met : more ∈ tree.filesBelow (below base (literalNames text)))
      (read : Glob.parse (plain text) = .ok whole)
      (isMatch : Glob.matchesText whole ("/".intercalate (literalNames text ++ more)) = true) :
      Selects tree base text (FileTree.extend (below base (literalNames text)) more)

/-! ## Both parts of a pattern -/

/-- The components from the first one with a mark on. -/
def markedNames (text : String) : List String := (names text).dropWhile isUnmarked

theorem literalNames_append (text : String) : literalNames text ++ markedNames text = names text :=
  List.takeWhile_append_dropWhile

section

variable {text name : String}

theorem of_mem_names (mem : name ∈ names text) :
    Path.isVoid name = false ∧ '/' ∉ name.toList ∧ ∀ c ∈ name.toList, c ∈ text.toList := by
  obtain ⟨segment, notVoid⟩ := List.mem_filter.mp mem
  obtain ⟨piece, inText, rfl⟩ := List.mem_map.mp segment
  rw [String.toList_ofList]
  exact ⟨by simpa using notVoid, Path.slash_not_mem_splitSlashes inText⟩

theorem isUnmarked_iff : isUnmarked name = true ↔ ∀ c ∈ name.toList, c ∉ ['*', '?', '[', '\x7b'] := by
  simp [isUnmarked, isMarked, not_or, and_assoc]

/-- Names between slashes do not end in a slash. -/
theorem not_slash_suffix {names : List String}
    (proper : ∀ name ∈ names, Path.isVoid name = false ∧ '/' ∉ name.toList) :
    ¬['/'] <:+ ("/".intercalate names).toList := by
  rintro ⟨front, text⟩
  rcases List.eq_nil_or_concat names with rfl | ⟨others, name, rfl⟩
  · simp at text
  obtain ⟨notVoid, plain⟩ := proper name (by simp)
  have nonempty : name.toList ≠ [] := by
    intro void
    rw [String.toList_eq_nil_iff] at void
    subst void
    cases notVoid
  obtain ⟨head, whole⟩ : ∃ head, ("/".intercalate (others.concat name)).toList = head ++ name.toList := by
    rw [List.concat_eq_append]
    by_cases first : others = []
    · exact ⟨[], by simp [first]⟩
    · rw [String.intercalate_append_of_ne_nil first (by simp), String.intercalate_singleton, String.toList_append]
      exact ⟨_, rfl⟩
  rw [whole] at text
  have last := congrArg List.getLast? text
  rw [List.getLast?_concat, List.getLast?_append_of_ne_nil _ nonempty] at last
  exact plain (List.mem_of_getLast? last.symm)

/-- The rest of a pattern can be read by itself, and matches in a directory what the whole matches behind its names. -/
theorem Relative.exists_rest (relative : Relative text) (marked : markedNames text ≠ []) :
    ∃ whole glob, Glob.parse (plain text) = .ok whole ∧ Glob.parse ("/".intercalate (markedNames text)) = .ok glob ∧
      ∀ more, more ≠ [] → Glob.matchesText whole ("/".intercalate (literalNames text ++ more)) =
        Glob.matchesText glob ("/".intercalate more) := by
  obtain ⟨whole, read⟩ := relative.valid
  by_cases noFront : literalNames text = []
  · have all : markedNames text = names text := by rw [← literalNames_append text, noFront, List.nil_append]
    refine ⟨whole, whole, read, by rw [all]; exact read, fun more _ => by rw [noFront, List.nil_append]⟩
  have unmarked : ∀ c ∈ ("/".intercalate (literalNames text)).toList, c ∉ ['?', '*', '[', '\x7b', '\\'] := by
    intro c mem
    rcases Text.mem_intercalate mem with between | ⟨name, literal, inName⟩
    · rw [List.mem_singleton.mp between]
      decide
    · have inText := (of_mem_names (List.takeWhile_subset _ literal)).2.2 c inName
      have notEscape : c ≠ '\\' := fun same => relative.noEscape (same ▸ inText)
      have unmarked := isUnmarked_iff.mp (List.mem_takeWhile_imp literal) c inName
      simp_all
  have ends : ¬['/'] <:+ ("/".intercalate (markedNames text)).toList := not_slash_suffix fun name mem =>
    have isName := of_mem_names (List.dropWhile_subset _ mem)
    ⟨isName.1, isName.2.1⟩
  have split {more : List String} (further : more ≠ []) : "/".intercalate (literalNames text ++ more) =
      "/".intercalate (literalNames text) ++ "/" ++ "/".intercalate more :=
    String.intercalate_append_of_ne_nil noFront further
  rw [plain, ← literalNames_append text, split marked] at read
  obtain ⟨glob, readRest, same⟩ := Glob.matchesText_below unmarked ends read
  refine ⟨whole, glob, ?_, readRest, fun more further => ?_⟩
  · rw [plain, ← literalNames_append text, split marked, read]
  · rw [split further, same]

end

/-! ## Discovery -/

section

variable {tree : FileTree} {base : Path} {text : String}

/-- A pattern is not cut among components without marks. -/
theorem split_of_components {pattern : Path} {front rest : List Path.Component}
    (components : pattern.components = front ++ rest) (unmarked : ∀ c ∈ front, isMarked c = false) :
    split pattern = (.ofComponents (front ++ rest.takeWhile (!isMarked ·)), rest.dropWhile (!isMarked ·)) := by
  have keeps : ∀ c ∈ front, (!isMarked c) = true := fun c mem => by simp [unmarked c mem]
  rw [split, components, List.takeWhile_append_of_pos keeps, List.dropWhile_append_of_pos keeps]

theorem split_patternOf (absolute : base.isAbsolute = true) (unmarked : ∀ c ∈ base.components, isMarked c = false)
    (relative : Relative text) :
    split (patternOf base text) = (below base (literalNames text), (markedNames text).map .name) := by
  rw [split_of_components (components_patternOf absolute relative.trimmed relative.noParent) unmarked,
    List.takeWhile_map, List.dropWhile_map]
  rfl

theorem text_ofComponents_names {names : List String} (nonempty : names ≠ []) :
    (Path.ofComponents (names.map .name)).text = "/".intercalate names := by
  obtain ⟨first, rest, rfl⟩ := List.exists_cons_of_ne_nil nonempty
  simp [Path.ofComponents, Path.text, Path.Component.segment, Function.comp_def]

theorem mem_select_of_literal (literal : literalNames text = names text) (p : Path) :
    (p ∈ if tree.isFile (tree.absolute (below base (names text))) then [tree.absolute (below base (names text))]
      else []) ↔ Selects tree base text p := by
  constructor
  · intro mem
    split at mem
    · next isFile =>
      rw [List.mem_singleton.mp mem]
      exact .file literal isFile
    · cases mem
  · intro selects
    cases selects with
    | file _ isFile =>
      rw [if_pos isFile]
      exact List.mem_singleton_self _
    | found marked => exact absurd literal marked

theorem mem_select_of_marked (tree : FileTree) (base : Path) (relative : Relative text)
    (marked : markedNames text ≠ []) :
    ∃ glob, Glob.parse ("/".intercalate (markedNames text)) = .ok glob ∧
      ∀ p, p ∈ (if tree.isDirectory (below base (literalNames text)) then
        (tree.filesBelow (below base (literalNames text))).filterMap fun more =>
          if Glob.matchesText glob ("/".intercalate more) then
            some (FileTree.extend (below base (literalNames text)) more)
          else none
      else []) ↔ Selects tree base text p := by
  have notLiteral : literalNames text ≠ names text := fun same =>
    marked (by simpa [same] using literalNames_append text)
  obtain ⟨whole, glob, read, readRest, same⟩ := relative.exists_rest marked
  refine ⟨glob, readRest, fun p => ⟨fun mem => ?_, fun selects => ?_⟩⟩
  · split at mem
    · next isDirectory =>
      obtain ⟨more, met, eq⟩ := List.mem_filterMap.mp mem
      split at eq
      · next isMatch =>
        cases eq
        rw [← same more (FileTree.ne_nil_of_mem_filesBelow met)] at isMatch
        exact .found notLiteral isDirectory met read isMatch
      · cases eq
    · cases mem
  · cases selects with
    | file literal => exact absurd literal notLiteral
    | @found whole' more _ isDirectory met read' isMatch =>
      cases read.symm.trans read'
      rw [same more (FileTree.ne_nil_of_mem_filesBelow met)] at isMatch
      rw [if_pos isDirectory]
      exact List.mem_filterMap.mpr ⟨more, met, by rw [if_pos isMatch]⟩

/-- The paths that are found for a pattern are those that it selects. -/
theorem select_relative (tree : FileTree) (absolute : base.isAbsolute = true)
    (unmarked : ∀ c ∈ base.components, isMarked c = false) (relative : Relative text) :
    ∃ found, select tree (patternOf base text) = .ok found ∧ ∀ p, p ∈ found ↔ Selects tree base text p := by
  have cut := split_patternOf absolute unmarked relative
  by_cases noMark : markedNames text = []
  · have literal : literalNames text = names text := by rw [← literalNames_append text, noMark, List.append_nil]
    rw [literal, noMark] at cut
    rw [select, cut]
    exact ⟨_, rfl, mem_select_of_literal literal⟩
  · obtain ⟨glob, read, mem_iff⟩ := mem_select_of_marked tree base relative noMark
    refine ⟨_, ?_, mem_iff⟩
    obtain ⟨first, others, rest⟩ := List.exists_cons_of_ne_nil noMark
    rw [← text_ofComponents_names noMark, rest] at read
    rw [rest] at cut
    rw [select, cut]
    simp only [List.map_cons] at read ⊢
    rw [read]
    split <;> rfl

/-- A mark in the name of the base directory is one of the pattern. What is found is below the names in front of it, and
what is matched there are the base directory's own names as well. -/
theorem mem_select_of_marked_base {front behind : List Path.Component} {name : String} {found : List Path}
    (absolute : base.isAbsolute = true) (components : base.components = front ++ .name name :: behind)
    (unmarked : ∀ c ∈ front, isMarked c = false) (marked : isMarked (.name name) = true)
    (trimmed : (trimmed text).isAbsolute = false) (noParent : ".." ∉ names text)
    (worked : select tree (patternOf base text) = .ok found) (p : Path) :
    p ∈ found ↔ tree.isDirectory (.ofComponents front) = true ∧ ∃ glob,
      Glob.parse (Path.ofComponents (.name name :: (behind ++ (names text).map .name))).text = .ok glob ∧
      ∃ more ∈ tree.filesBelow (.ofComponents front), Glob.matchesText glob ("/".intercalate more) = true ∧
        FileTree.extend (.ofComponents front) more = p := by
  have cut : split (patternOf base text) =
      (.ofComponents front, .name name :: (behind ++ (names text).map .name)) := by
    have whole : (patternOf base text).components = front ++ .name name :: (behind ++ (names text).map .name) := by
      rw [components_patternOf absolute trimmed noParent, components, List.append_assoc, List.cons_append]
    rw [split_of_components whole unmarked, List.takeWhile_cons_of_neg (by simp [marked]),
      List.dropWhile_cons_of_neg (by simp [marked]), List.append_nil]
  rw [select, cut] at worked
  simp only at worked
  split at worked
  · next isDirectory =>
    split at worked
    · cases worked
    · next glob read =>
      cases worked
      simp only [isDirectory, read, List.mem_filterMap, Option.ite_none_right_eq_some, Option.some.injEq, true_and,
        Except.ok.injEq, exists_eq_left']
  · next elsewhere =>
    cases worked
    simp [elsewhere]

/-- For relative patterns discovery succeeds: it finds, each place once and in order, what the patterns select. -/
theorem discover_relative (tree : FileTree) {patterns : List String} (absolute : base.isAbsolute = true)
    (unmarked : ∀ c ∈ base.components, isMarked c = false) (relative : ∀ text ∈ patterns, Relative text) :
    ∃ found, discover tree base patterns = .ok found ∧ Path.Increasing found ∧
      (∀ p ∈ found, ∃ text ∈ patterns, Selects tree base text p) ∧
        ∀ text ∈ patterns, ∀ p, Selects tree base text p → ∃ q ∈ found, q.same p = true := by
  have each (text : String) (mem : text ∈ patterns) := select_relative tree absolute unmarked (relative text mem)
  obtain ⟨selected, all⟩ := exists_mapM_eq_ok fun text mem => (each text mem).imp fun _ found => found.1
  obtain ⟨increasing, sub, sup⟩ := Path.increasing_ordered selected.flatten
  refine ⟨Path.ordered selected.flatten, ?_, increasing, fun p mem => ?_, fun text mem p selects => ?_⟩
  · rw [discover, all]
    rfl
  · obtain ⟨found, listed, inFound⟩ := List.mem_flatten.mp (sub p mem)
    obtain ⟨text, inPatterns, read⟩ := mem_of_mem_of_mapM all listed
    obtain ⟨found', read', iff⟩ := each text inPatterns
    cases read.symm.trans read'
    exact ⟨text, inPatterns, (iff p).mp inFound⟩
  · obtain ⟨found, listed, read⟩ := ok_of_mem_of_mapM all mem
    obtain ⟨found', read', iff⟩ := each text mem
    cases read.symm.trans read'
    exact sup p (List.mem_flatten.mpr ⟨found, listed, (iff p).mpr selects⟩)

end

namespace Sampled

/-- A file, and a directory with a file and a link to another directory. -/
def tree : FileTree where
  nodes := [(["p"], .directory), (["p", "A.sol"], .file (.text "")), (["p", "src"], .directory),
    (["p", "src", "B.sol"], .file (.text "")), (["p", "src", "lib"], .link (.ofText "/v")), (["v"], .directory),
    (["v", "C.sol"], .file (.text ""))]
  workingDirectory := []
  distinct := by decide

def base : Path := .ofText "/p"

def patterns : List String := ["./src/**/C.*", "A.sol"]

theorem reads : (Glob.parse (plain "./src/**/C.*")).toOption.isSome = true := by decide +kernel

theorem relative : ∀ text ∈ patterns, Relative text := by
  intro text mem
  rcases List.mem_cons.mp mem with rfl | mem
  · exact ⟨by decide +kernel, by decide +kernel, by decide +kernel, ⟨_, eq_ok_of_isSome reads⟩⟩
  · rw [List.mem_singleton.mp mem]
    exact ⟨by decide +kernel, by decide +kernel, by decide +kernel, ⟨_, eq_ok_of_isSome (by decide +kernel)⟩⟩

theorem met : ["lib", "C.sol"] ∈ tree.filesBelow (below base (literalNames "./src/**/C.*")) := by
  have directory : below base (literalNames "./src/**/C.*") = .ofText "/p/src" := by decide +kernel
  have walked : tree.filesBelow (.ofText "/p/src") = [["B.sol"], ["lib", "C.sol"]] :=
      FileTree.filesBelow_of_within 4 (by decide +kernel)
  rw [directory, walked]
  simp

end Sampled

/-- Discovery finds a file behind a link, and one that is named. -/
theorem discover_relative_sampled :
    (Sampled.base.isAbsolute = true ∧ (∀ c ∈ Sampled.base.components, isMarked c = false) ∧
      ∀ text ∈ Sampled.patterns, Relative text) ∧
    ∃ found, discover Sampled.tree Sampled.base Sampled.patterns = .ok found ∧ Path.Increasing found ∧
      (∃ q ∈ found, q.same (.ofText "/p/src/lib/C.sol") = true) ∧ ∃ q ∈ found, q.same (.ofText "/p/A.sol") = true := by
  have unmarked : ∀ c ∈ Sampled.base.components, isMarked c = false := by decide +kernel
  refine ⟨⟨by decide +kernel, unmarked, Sampled.relative⟩, ?_⟩
  obtain ⟨found, discovered, increasing, _, all⟩ :=
    discover_relative Sampled.tree (by decide +kernel) unmarked Sampled.relative
  refine ⟨found, discovered, increasing, ?_, ?_⟩
  · exact all "./src/**/C.*" (by decide +kernel) _ (.found (by decide +kernel) (by decide +kernel) Sampled.met
      (eq_ok_of_isSome Sampled.reads) (by decide +kernel))
  · exact all "A.sol" (by decide +kernel) _ (.file (by decide +kernel) (by decide +kernel))

/-! ### Whole patterns below the base directory -/

/-- The files below a directory whose names a pattern matches as a whole, in the order of paths. -/
def matching (tree : FileTree) (base : Path) (text : String) : List Path :=
  Path.ordered <| (tree.filesBelow base).filterMap fun names =>
    if (Glob.parse (plain text)).toOption.any (Glob.matchesText · ("/".intercalate names)) then
      some (FileTree.extend base names)
    else none

/-- An absolute directory, and a pattern that can be read and starts there. -/
def StartsAt (tree : FileTree) (base : Path) (text : String) : Prop :=
  base.isAbsolute = true ∧ tree.isDirectory base = true ∧ (Path.ofText text).isAbsolute = false ∧ ".." ∉ names text ∧
    '\\' ∉ text.toList ∧ (Glob.parse (plain text)).toOption.isSome = true

instance (tree : FileTree) (base : Path) (text : String) : Decidable (StartsAt tree base text) :=
  inferInstanceAs (Decidable (_ ∧ _))

namespace Sampled

/-- A file, and a link to it. -/
def linked : FileTree :=
  ⟨[(["p"], .directory), (["p", "A.sol"], .link (.ofText "B.sol")), (["p", "B.sol"], .file (.text ""))], [], by decide⟩

/-- A directory with a link to the one around it. -/
def looping : FileTree :=
  ⟨[(["p"], .directory), (["p", "a"], .directory), (["p", "a", "B.sol"], .file (.text "")),
    (["p", "a", "up"], .link (.ofText "/p"))], [], by decide⟩

/-- A link to a directory that is elsewhere. -/
def elsewhere : FileTree :=
  ⟨[(["p"], .directory), (["p", "A.sol"], .file (.text "")), (["p", "link"], .link (.ofText "/q/r")),
    (["q"], .directory), (["q", "r"], .directory), (["q", "r", "B.sol"], .file (.text ""))], [], by decide⟩

/-- A directory with a mark in its name. -/
def marked : FileTree :=
  ⟨[(["p[1]"], .directory), (["p[1]", "contracts"], .directory),
    (["p[1]", "contracts", "A.sol"], .file (.text ""))], [], by decide⟩

/-- A directory without one. -/
def unmarked : FileTree :=
  ⟨[(["p"], .directory), (["p", "contracts"], .directory), (["p", "contracts", "A.sol"], .file (.text ""))], [],
    by decide⟩

end Sampled

/-- Discovery and matching whole patterns below the base directory differ: where the file of a pattern without marks
is a link, or its path leads elsewhere; where the names in front of the first mark lead through a link to a directory
around; where the base directory has a mark; and where a slash is behind the `./` at the front. -/
theorem discover_ne_matching :
    (StartsAt Sampled.linked (.ofText "/p") "A.sol" ∧
      discover Sampled.linked (.ofText "/p") ["A.sol"] = .ok [.ofText "/p/B.sol"] ∧
      matching Sampled.linked (.ofText "/p") "A.sol" = [.ofText "/p/A.sol"]) ∧
    (StartsAt Sampled.elsewhere (.ofText "/p/link/..") "A.sol" ∧
      discover Sampled.elsewhere (.ofText "/p/link/..") ["A.sol"] = .ok [.ofText "/p/A.sol"] ∧
      matching Sampled.elsewhere (.ofText "/p/link/..") "A.sol" = []) ∧
    (StartsAt Sampled.looping (.ofText "/p") "a/up/a/*.sol" ∧
      discover Sampled.looping (.ofText "/p") ["a/up/a/*.sol"] = .ok [.ofText "/p/a/up/a/B.sol"] ∧
      matching Sampled.looping (.ofText "/p") "a/up/a/*.sol" = []) ∧
    (StartsAt Sampled.marked (.ofText "/p[1]") "contracts/*.sol" ∧
      discover Sampled.marked (.ofText "/p[1]") ["contracts/*.sol"] = .ok [] ∧
      matching Sampled.marked (.ofText "/p[1]") "contracts/*.sol" = [.ofText "/p[1]/contracts/A.sol"]) ∧
    StartsAt Sampled.unmarked (.ofText "/p") ".//contracts/*.sol" ∧
      discover Sampled.unmarked (.ofText "/p") [".//contracts/*.sol"] = .ok [] ∧
      matching Sampled.unmarked (.ofText "/p") ".//contracts/*.sol" = [.ofText "/p/contracts/A.sol"] := by
  have discover_singleton {tree : FileTree} {base : Path} {text : String} {found : List Path}
      (selected : select tree (patternOf base text) = .ok found) :
      discover tree base [text] = .ok (Path.ordered found) := by
    rw [discover, List.mapM_cons, selected]
    exact congrArg (fun paths => Except.ok (Path.ordered paths)) (List.append_nil found)
  have ofWalk {tree : FileTree} {base : Path} {text : String} {walked : List (List String)}
      (walk : tree.filesBelow base = walked) : matching tree base text = Path.ordered (walked.filterMap fun names =>
        if (Glob.parse (plain text)).toOption.any (Glob.matchesText · ("/".intercalate names)) then
          some (FileTree.extend base names)
        else none) := by rw [matching, walk]
  refine ⟨⟨by decide +kernel, by decide +kernel, ?_⟩, ⟨by decide +kernel, by decide +kernel, ?_⟩,
    ⟨by decide +kernel, ?_, ?_⟩, ⟨by decide +kernel, ?_, ?_⟩, by decide +kernel, by decide +kernel, ?_⟩
  · have walk : Sampled.linked.filesBelow (.ofText "/p") = [["A.sol"], ["B.sol"]] :=
      FileTree.filesBelow_of_within 4 (by decide +kernel)
    rw [ofWalk walk]
    decide +kernel
  · have walk : Sampled.elsewhere.filesBelow (.ofText "/p/link/..") = [["r", "B.sol"]] :=
      FileTree.filesBelow_of_within 4 (by decide +kernel)
    rw [ofWalk walk]
    decide +kernel
  · have walk : Sampled.looping.filesBelow (.ofText "/p/a/up/a") = [["B.sol"], ["up", "a", "B.sol"]] :=
      FileTree.filesBelow_of_within 4 (by decide +kernel)
    have cut : split (patternOf (.ofText "/p") "a/up/a/*.sol") = (.ofText "/p/a/up/a", [.name "*.sol"]) := by
      decide +kernel
    have selected : select Sampled.looping (patternOf (.ofText "/p") "a/up/a/*.sol") =
        .ok [.ofText "/p/a/up/a/B.sol"] := by
      simp only [select, cut, walk]
      decide +kernel
    rw [discover_singleton selected]
    decide +kernel
  · have walk : Sampled.looping.filesBelow (.ofText "/p") = [["a", "B.sol"]] :=
      FileTree.filesBelow_of_within 4 (by decide +kernel)
    rw [ofWalk walk]
    decide +kernel
  · have walk : Sampled.marked.filesBelow (.ofText "/") = [["p[1]", "contracts", "A.sol"]] :=
      FileTree.filesBelow_of_within 4 (by decide +kernel)
    have cut : split (patternOf (.ofText "/p[1]") "contracts/*.sol") =
        (.ofText "/", [.name "p[1]", .name "contracts", .name "*.sol"]) := by decide +kernel
    have selected : select Sampled.marked (patternOf (.ofText "/p[1]") "contracts/*.sol") = .ok [] := by
      simp only [select, cut, walk]
      decide +kernel
    rw [discover_singleton selected]
    decide +kernel
  · have walk : Sampled.marked.filesBelow (.ofText "/p[1]") = [["contracts", "A.sol"]] :=
      FileTree.filesBelow_of_within 4 (by decide +kernel)
    rw [ofWalk walk]
    decide +kernel
  · have walk : Sampled.unmarked.filesBelow (.ofText "/p") = [["contracts", "A.sol"]] :=
      FileTree.filesBelow_of_within 4 (by decide +kernel)
    rw [ofWalk walk]
    decide +kernel

end Discovery

end SolidityBuild
