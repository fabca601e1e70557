import SolidityBuild.Artifact.Flattened
import SolidityBuild.Proofs.ImportStatements
import SolidityBuild.Proofs.Results
import SolidityBuild.Proofs.SourceLoading

/-!
# Sources without their directives

Directives are found in one pass over a source, so a text that only stands at the start of a line, or only is a
directive, because others were taken out is left behind. This happens in two ways: a directive that starts its
line is followed by another one on the same line (`Uncovers`), or a line that is no directive becomes one when
those behind it are taken out (`Completes`). In all other sources no directive is left, and the part of a
flattened source that such a file makes up holds none (`stripped_clean_iff`).
-/

namespace SolidityBuild.Source.Import

open Text (Piece remainder found startsLine)

/-! ## What can be left -/

/-- Something is taken out at the start of a line, and what stays behind it begins with a directive. -/
def Uncovers (pieces : List (Piece (List Char))) : Prop :=
  ∃ before reference after, pieces = before ++ .found reference :: after ∧ startsLine true (remainder before) = true ∧
    (directive (remainder after)).isSome = true

/-- Nothing is taken out at the start of a line, but what stays of it and of the lines behind it begins with a
directive. -/
def Completes (pieces : List (Piece (List Char))) : Prop :=
  ∃ before after, pieces = before ++ after ∧ (before = [] ∨ ∃ front, before = front ++ [.char '\n']) ∧
    (∀ reference rest, after ≠ .found reference :: rest) ∧ (directive (remainder after)).isSome = true

/-- A cut of what stays is a cut of the pieces, and nothing is taken out right behind it. -/
theorem exists_pieces_of_remainder {α : Type} {pieces : List (Piece α)} {front back : List Char}
    (split : remainder pieces = front ++ back) :
    ∃ before after, pieces = before ++ after ∧ remainder before = front ∧ remainder after = back ∧
      ∀ what rest, after ≠ .found what :: rest := by
  induction pieces generalizing front with
  | nil =>
    obtain ⟨rfl, rfl⟩ := List.append_eq_nil_iff.mp split.symm
    exact ⟨[], [], rfl, rfl, rfl, by simp⟩
  | cons piece pieces ih =>
    cases piece with
    | found what =>
      obtain ⟨before, after, rfl, here, there, plain⟩ := ih split
      exact ⟨.found what :: before, after, rfl, here, there, plain⟩
    | char c =>
      cases front with
      | nil => exact ⟨[], .char c :: pieces, rfl, rfl, split, by simp⟩
      | cons d front =>
        obtain ⟨rfl, behind⟩ := List.cons_eq_cons.mp (split.trans List.cons_append)
        obtain ⟨before, after, rfl, rfl, there, plain⟩ := ih behind
        exact ⟨.char c :: before, after, rfl, rfl, there, plain⟩

/-- No directive is left of a source exactly if none is uncovered and none is completed. -/
theorem references_stripped_eq_nil_iff (source : String) :
    references (stripped source) = [] ↔ ¬Uncovers (pieces source.toList) ∧ ¬Completes (pieces source.toList) := by
  rw [references, List.map_eq_nil_iff, stripped, String.toList_ofList]
  generalize pieces source.toList = cuts
  refine (Text.found_cut_eq_nil_iff directive true (remainder cuts)).trans ?_
  constructor
  · intro nothing
    constructor
    · rintro ⟨before, reference, after, rfl, start, left⟩
      have split : remainder (before ++ .found reference :: after) = remainder before ++ remainder after :=
        Text.remainder_append ..
      rw [nothing _ _ split start] at left
      cases left
    · rintro ⟨before, after, rfl, start, _, left⟩
      have starts : startsLine true (remainder before) = true := by
        rcases start with rfl | ⟨front, rfl⟩
        · rfl
        · have last : remainder (front ++ [.char '\n']) = remainder front ++ ['\n'] := Text.remainder_append ..
          rw [last, Text.startsLine_concat]
          rfl
      rw [nothing _ _ (Text.remainder_append before after) starts] at left
      cases left
  · rintro ⟨uncovers, completes⟩ front back split start
    obtain ⟨before, after, rfl, rfl, rfl, plain⟩ := exists_pieces_of_remainder split
    rw [← Option.not_isSome_iff_eq_none]
    intro left
    rcases List.eq_nil_or_concat before with rfl | ⟨init, piece, rfl⟩
    · exact completes ⟨[], after, rfl, .inl rfl, plain, left⟩
    · rw [List.concat_eq_append] at uncovers completes start
      cases piece with
      | found reference =>
        have here : remainder (init ++ [.found reference]) = remainder init := by
          rw [Text.remainder_append]
          exact List.append_nil _
        rw [here] at start
        exact uncovers ⟨init, reference, after, by simp, start, left⟩
      | char c =>
        have here : remainder (init ++ [Piece.char (α := List Char) c]) = remainder init ++ [c] := Text.remainder_append ..
        rw [here, Text.startsLine_concat, decide_eq_true_eq] at start
        rw [start] at completes
        exact completes ⟨_, after, rfl, .inr ⟨init, rfl⟩, plain, left⟩

/-- The line `import from` is no directive, but completed by the one behind the directive that is taken out. -/
example : references (stripped "import from\nimport \"a\";\n\"b\";\n") = ["b"] := by
  decide +kernel

/-! ## Texts of statements and lines -/

/-- What stays of a segment, as a line. -/
def Segment.plain : Segment → Segment
  | statement _ => .line [] (by simp) (by decide)
  | line cs single other => .line cs single other

theorem Segment.text_plain (segment : Segment) : segment.plain.text = segment.remainder := by
  cases segment with
  | statement s => rfl
  | line cs _ _ => rfl

theorem Segment.found_plain (segment : Segment) : found segment.plain.pieces = [] := by
  cases segment with
  | statement s => rfl
  | line cs _ _ => exact Text.found_chars _

theorem found_plain (segments : List Segment) : found ((segments.map Segment.plain).flatMap Segment.pieces) = [] := by
  induction segments with
  | nil => rfl
  | cons segment rest ih =>
    rw [List.map_cons, List.flatMap_cons, Text.found_append, ih, segment.found_plain, List.append_nil]

/-- Lines read in front of a text add nothing to what is found in it. -/
theorem references_behind_lines (segments : List Segment) (rest : List Char) :
    references (String.ofList ((segments.map Segment.plain).flatMap Segment.text ++ rest)) =
      references (String.ofList rest) := by
  rw [references, references, String.toList_ofList, String.toList_ofList]
  have cuts := cut_flatMap_text (segments.map Segment.plain) rest
  have pieces (cs : List Char) : pieces cs = Text.cut directive true cs := rfl
  rw [pieces, pieces, cuts, Text.found_append, found_plain, List.nil_append]

/-- No directive is left of a text of statements that each end their line. -/
theorem references_stripped_sourceOf (segments : List Segment) : references (stripped (sourceOf segments)) = [] := by
  have lines : segments.flatMap Segment.remainder = (segments.map Segment.plain).flatMap Segment.text := by
    rw [List.flatMap_map]
    simp only [Segment.text_plain]
  have rest := references_behind_lines segments []
  rw [List.append_nil, ← lines] at rest
  rw [stripped, sourceOf, String.toList_ofList, remainder_pieces_text, rest]
  decide +kernel

/-! ## Flattened sources -/

/-- The line that names a file starts with a slash, not with the word. -/
theorem marker_other (key : List Char) :
    ¬"import".toList <+: (Artifact.fileMarker.toList ++ key).dropWhile isIndent := by
  have slash : Artifact.fileMarker.toList = '/' :: "//File: ".toList := rfl
  rw [slash, List.cons_append, List.dropWhile_cons_of_neg (by decide)]
  intro keyword
  exact absurd (List.cons_prefix_cons.mp keyword).1 (by decide)

/-- The lines in front of a file whose name has no line feed. -/
def markerLines (key : List Char) (single : '\n' ∉ key) : List Segment :=
  have plain : '\n' ∉ Artifact.fileMarker.toList ++ key := by
    rw [List.mem_append, not_or]
    exact ⟨by decide, single⟩
  [.line [] (by simp) (by decide), .line [] (by simp) (by decide), .line _ plain (marker_other key)]

/-- The part of a flattened source that a file makes up holds the directives that are left of the file. -/
theorem references_segment {store : SourceStore} {file : Path} {unit : SourceUnit} {text : String}
    (stored : store.get? file = some unit) (single : '\n' ∉ (file.key store.base).toList)
    (made : Artifact.segment store file = .ok text) : references text = references (stripped unit.content) := by
  obtain ⟨unit', found, same⟩ := bind_eq_ok_iff.mp made
  obtain rfl : unit = unit' := Option.some.inj (stored.symm.trans (SourceStore.unit_eq_ok_iff.mp found))
  have layout : text = String.ofList
      (((markerLines (file.key store.base).toList single).map Segment.plain).flatMap Segment.text ++
        (stripped unit.content).toList) := by
    cases same
    apply String.toList_injective
    simp [markerLines, Segment.plain, Segment.text, String.toList_append]
  rw [layout, references_behind_lines, String.ofList_toList]

/-- No directive is left of a source exactly if none is uncovered and none is completed. So none is left of a text whose
statements each end their line, and a flattened source holds in the part of a file what is left of that file. -/
theorem stripped_clean_iff (source : String) :
    (references (stripped source) = [] ↔ ¬Uncovers (pieces source.toList) ∧ ¬Completes (pieces source.toList)) ∧
      ((∃ segments, source = sourceOf segments) → references (stripped source) = []) ∧
      ∀ (store : SourceStore) (file : Path) (unit : SourceUnit) (text : String), store.get? file = some unit →
        unit.content = source → '\n' ∉ (file.key store.base).toList → Artifact.segment store file = .ok text →
        references text = references (stripped source) := by
  refine ⟨references_stripped_eq_nil_iff source, ?_, ?_⟩
  · rintro ⟨segments, rfl⟩
    exact references_stripped_sourceOf segments
  · rintro store file unit text stored rfl single made
    exact references_segment stored single made

/-- Two statements on one line: the second one is uncovered and is also found in the flattened source. -/
theorem not_stripped_clean_uncovered :
    let source := "import \"a\"; import \"b\";\n"
    let file := Path.ofText "/p/A.sol"
    let store : SourceStore := { SourceStore.new (.ofText "/p") Dict.empty with units := [⟨file, source, .primary⟩] }
    Uncovers (pieces source.toList) ∧ stripped source = " import \"b\";\n" ∧ references (stripped source) = ["b"] ∧
      ∃ text, Artifact.segment store file = .ok text ∧ references text = ["b"] := by
  intro source file store
  have stripped_eq : stripped source = " import \"b\";\n" := by decide +kernel
  have left : references (stripped source) = ["b"] := by decide +kernel
  have uncovers : Uncovers (pieces source.toList) := by
    refine ⟨[], "a".toList, " import \"b\";\n".toList.map .char, by decide +kernel, rfl, by decide +kernel⟩
  obtain ⟨_, _, flattened⟩ := stripped_clean_iff source
  have found : (Artifact.segment store file).toOption.isSome = true := by decide +kernel
  have made := eq_ok_of_isSome found
  refine ⟨uncovers, stripped_eq, left, _, made, ?_⟩
  rw [flattened store file ⟨file, source, .primary⟩ _ (by decide +kernel) rfl (by decide +kernel) made]
  exact left

end SolidityBuild.Source.Import
