import SolidityBuild.Proofs.Directives

/-!
# Texts of import statements

A statement imports a file as it is, under another name, as a whole, or by some of its symbols. A text whose
statements each end their line, among lines that do not start with the word `import`, is cut at its statements
(`pieces_text`), so it reads back as their references in order, and what stays without them is the other lines
and the ends of their own (`references_sourceOf`).
-/

namespace SolidityBuild.Source.Import

open Text (isBlank trimEnd cut found remainder Piece startsLine)

/-! ## Statements -/

/-- Spaces and tabs at the start of a line. -/
abbrev Indent := { indent : List Char // ∀ c ∈ indent, isIndent c = true }

/-- White space between words, line feeds included. -/
abbrev Gap := { gap : List Char // ∀ c ∈ gap, isBlank c = true }

/-- The text of names and symbols, which holds no semicolons and no quotation marks. -/
abbrev Words := { words : List Char // ∀ c ∈ words, endsClause c = false }

/-- A reference between marks of one kind, which it does not hold itself. -/
structure Quotation where
  mark : Char
  reference : List Char
  isQuote : isQuote mark = true
  unmarked : mark ∉ reference

/-- What a statement says around its reference. -/
inductive Form where
  /-- `import "x";` -/
  | file (front back : Gap)
  /-- `import "x" as X;` -/
  | renamed (front beforeAs behindAs : Gap) (name : Words) (back : Gap)
  /-- `import * as X from "x";` -/
  | everything (front beforeAs behindAs : Gap) (name : Words) (beforeFrom behindFrom back : Gap)
  /-- `import {A, B as C} from "x";` -/
  | symbols (front : Gap) (names : Words) (beforeFrom behindFrom back : Gap)

namespace Form

/-- The text between the word `import` and the reference. -/
def clause : Form → List Char
  | file front _ => front
  | renamed front _ _ _ _ => front
  | everything front beforeAs behindAs name beforeFrom behindFrom _ =>
    front.1 ++ ['*'] ++ beforeAs.1 ++ "as".toList ++ behindAs.1 ++ name.1 ++ beforeFrom.1 ++ "from".toList ++ behindFrom.1
  | symbols front names beforeFrom behindFrom _ =>
    front.1 ++ ['{'] ++ names.1 ++ ['}'] ++ beforeFrom.1 ++ "from".toList ++ behindFrom.1

/-- The text between the reference and the semicolon. -/
def trailer : Form → List Char
  | file _ back => back
  | renamed _ beforeAs behindAs name back => beforeAs.1 ++ "as".toList ++ behindAs.1 ++ name.1 ++ back.1
  | everything _ _ _ _ _ _ back => back
  | symbols _ _ _ _ back => back

end Form

/-- An import statement. -/
structure Statement where
  indent : Indent
  form : Form
  quotation : Quotation

/-- The text of a statement, from its indentation to its semicolon. -/
def Statement.text (s : Statement) : List Char :=
  s.indent.1 ++ "import".toList ++ s.form.clause ++ [s.quotation.mark] ++ s.quotation.reference ++
    [s.quotation.mark] ++ s.form.trailer ++ [';']

/-- A statement that ends its line, or a line that does not start with the word `import`. -/
inductive Segment where
  | statement (s : Statement)
  | line (cs : List Char) (single : '\n' ∉ cs) (other : ¬"import".toList <+: cs.dropWhile isIndent)

namespace Segment

/-- The text of a segment, with the line feed at its end. -/
def text : Segment → List Char
  | statement s => s.text ++ ['\n']
  | line cs _ _ => cs ++ ['\n']

def reference? : Segment → Option String
  | statement s => some (String.ofList s.quotation.reference)
  | line _ _ _ => none

/-- A segment without its statement. -/
def remainder : Segment → List Char
  | statement _ => ['\n']
  | line cs _ _ => cs ++ ['\n']

end Segment

/-- The text of some segments. -/
def sourceOf (segments : List Segment) : String := String.ofList (segments.flatMap Segment.text)

/-! ## Statements are directives -/

theorem Gap.unended (gap : Gap) : ∀ c ∈ gap.1, endsClause c = false := by
  intro c mem
  exact endsClause_of_isBlank (gap.2 c mem)

/-- White space alone introduces a reference. -/
theorem isClause_gap (gap : Gap) : isClause gap.1 = true := by
  simp [isClause, Text.trimEnd_of_blank gap.2]

/-- So does a text that ends in `from`. -/
theorem isClause_from (cs : List Char) (gap : Gap) : isClause (cs ++ "from".toList ++ gap.1) = true := by
  have trimmed : trimEnd (cs ++ "from".toList) = cs ++ "from".toList := by
    have last : cs ++ "from".toList = (cs ++ "fro".toList) ++ ['m'] := by simp
    rw [last]
    exact Text.trimEnd_concat (by decide) _
  rw [isClause, Text.trimEnd_gap gap.2, trimmed]
  simp

namespace Form

theorem isClause_clause (form : Form) : isClause form.clause = true := by
  cases form with
  | file front _ => exact isClause_gap front
  | renamed front _ _ _ _ => exact isClause_gap front
  | everything _ _ _ _ _ behindFrom _ => exact isClause_from _ behindFrom
  | symbols _ _ _ behindFrom _ => exact isClause_from _ behindFrom

theorem unended_clause (form : Form) : ∀ c ∈ form.clause, endsClause c = false := by
  have asWord : ∀ c ∈ "as".toList, endsClause c = false := by simp [endsClause, isQuote]
  have fromWord : ∀ c ∈ "from".toList, endsClause c = false := by simp [endsClause, isQuote]
  have signs : endsClause '*' = false ∧ endsClause '{' = false ∧ endsClause '}' = false := by decide
  intro c mem
  cases form with
  | file front _ => exact front.unended c mem
  | renamed front _ _ _ _ => exact front.unended c mem
  | everything front beforeAs behindAs name beforeFrom behindFrom _ =>
    simp only [clause, List.mem_append, List.mem_singleton] at mem
    rcases mem with (((((((mem | rfl) | mem) | mem) | mem) | mem) | mem) | mem) | mem
    · exact front.unended c mem
    · exact signs.1
    · exact beforeAs.unended c mem
    · exact asWord c mem
    · exact behindAs.unended c mem
    · exact name.2 c mem
    · exact beforeFrom.unended c mem
    · exact fromWord c mem
    · exact behindFrom.unended c mem
  | symbols front names beforeFrom behindFrom _ =>
    simp only [clause, List.mem_append, List.mem_singleton] at mem
    rcases mem with (((((mem | rfl) | mem) | rfl) | mem) | mem) | mem
    · exact front.unended c mem
    · exact signs.2.1
    · exact names.2 c mem
    · exact signs.2.2
    · exact beforeFrom.unended c mem
    · exact fromWord c mem
    · exact behindFrom.unended c mem

theorem unfinished_trailer (form : Form) : ';' ∉ form.trailer := by
  have ofWords {cs : List Char} (unended : ∀ c ∈ cs, endsClause c = false) : ';' ∉ cs := by
    intro mem
    exact absurd (unended ';' mem) (by decide)
  cases form with
  | file _ back => exact ofWords back.unended
  | renamed _ beforeAs behindAs name back =>
    simp only [trailer, List.mem_append, not_or]
    exact ⟨⟨⟨⟨ofWords beforeAs.unended, by decide⟩, ofWords behindAs.unended⟩, ofWords name.2⟩, ofWords back.unended⟩
  | everything _ _ _ _ _ _ back => exact ofWords back.unended
  | symbols _ _ _ _ back => exact ofWords back.unended

end Form

/-- The parts of a statement. -/
def Statement.directive (s : Statement) : Directive :=
  ⟨s.indent, s.form.clause, s.quotation.mark, s.quotation.reference, s.form.trailer, s.indent.2, s.form.unended_clause,
    s.form.isClause_clause, s.quotation.isQuote, s.quotation.unmarked, s.form.unfinished_trailer⟩

theorem Statement.text_directive (s : Statement) : s.directive.text = s.text := by
  simp [Directive.text, Statement.text, Statement.directive]

/-! ## Segments -/

/-- How a segment is cut. -/
def Segment.pieces : Segment → List (Piece (List Char))
  | statement s => [.found s.quotation.reference, .char '\n']
  | line cs _ _ => (cs ++ ['\n']).map .char

/-- A line that does not start with the word does not start with a directive. -/
theorem directive_line {cs : List Char} (other : ¬"import".toList <+: cs.dropWhile isIndent) (rest : List Char) :
    directive (cs ++ '\n' :: rest) = none := by
  refine directive_eq_none fun keyword => ?_
  rw [List.dropWhile_append] at keyword
  split at keyword
  · rw [List.dropWhile_cons_of_neg (by decide)] at keyword
    exact absurd (List.cons_prefix_cons.mp keyword).1 (by decide)
  · have single : '\n' ∉ "import".toList := by decide
    have here : cs.dropWhile isIndent ++ ['\n'] <+: cs.dropWhile isIndent ++ '\n' :: rest :=
      ⟨rest, by simp⟩
    rcases List.prefix_or_prefix_of_prefix keyword here with inside | beyond
    · rcases List.prefix_concat_iff.mp inside with whole | within
      · exact single (by simp [whole])
      · exact other within
    · exact single (beyond.subset (by simp))

/-- A segment is cut in the same way whatever lines follow. -/
theorem Segment.cut_text (segment : Segment) (rest : List Char) :
    cut Import.directive true (segment.text ++ rest) = segment.pieces ++ cut Import.directive true rest := by
  cases segment with
  | statement s =>
    have text : (Segment.statement s).text ++ rest = s.directive.text ++ '\n' :: rest := by
      rw [s.text_directive, Segment.text, List.append_assoc, List.singleton_append]
    rw [text, Text.cut_true_of_some (s.directive.read _), Text.cut_false_cons]
    rfl
  | line cs single other =>
    have nothing : ∀ before back, cs ++ ['\n'] = before ++ back → back ≠ [] → startsLine true before = true →
        Import.directive (back ++ rest) = none := by
      intro before back same behind start
      -- The line feed is the last character, so the only line start is the front.
      have within : before <+: cs := by
        have part : before <+: cs ++ ['\n'] := ⟨back, same.symm⟩
        rcases List.prefix_concat_iff.mp part with whole | within
        · rw [whole] at same
          exact absurd (List.self_eq_append_right.mp same) behind
        · exact within
      rcases List.eq_nil_or_concat before with rfl | ⟨front, c, rfl⟩
      · rw [List.nil_append] at same
        rw [← same, List.append_assoc]
        exact directive_line other rest
      · rw [List.concat_eq_append, Text.startsLine_concat, decide_eq_true_eq] at start
        rw [start] at within
        exact absurd (within.subset (by simp)) single
    have stretch := Text.cut_stretch Import.directive nothing
    rw [Text.startsLine_concat] at stretch
    exact stretch

/-- A text of segments is cut segment by segment. -/
theorem cut_flatMap_text (segments : List Segment) (rest : List Char) :
    cut directive true (segments.flatMap Segment.text ++ rest) =
      segments.flatMap Segment.pieces ++ cut directive true rest := by
  induction segments with
  | nil => rfl
  | cons segment others ih =>
    rw [List.flatMap_cons, List.flatMap_cons, List.append_assoc, List.append_assoc, ← ih]
    exact segment.cut_text _

theorem pieces_text (segments : List Segment) :
    pieces (segments.flatMap Segment.text) = segments.flatMap Segment.pieces := by
  have whole := cut_flatMap_text segments []
  rw [List.append_nil, Text.cut_nil, List.append_nil] at whole
  exact whole

theorem Segment.found_pieces (segment : Segment) :
    (found segment.pieces).map String.ofList = segment.reference?.toList := by
  cases segment with
  | statement s => rfl
  | line cs _ _ => rw [Segment.pieces, Text.found_chars]; rfl

theorem Segment.remainder_pieces (segment : Segment) : Text.remainder segment.pieces = segment.remainder := by
  cases segment with
  | statement s => rfl
  | line cs _ _ => exact Text.remainder_chars _

/-- What stays of a text of segments is one of lines alone. -/
theorem remainder_pieces_text (segments : List Segment) :
    remainder (pieces (segments.flatMap Segment.text)) = segments.flatMap Segment.remainder := by
  rw [pieces_text]
  induction segments with
  | nil => rfl
  | cons segment rest ih =>
    rw [List.flatMap_cons, List.flatMap_cons, Text.remainder_append, ih, segment.remainder_pieces]

/-- The references of a text of statements and lines are those of its statements in order, and without its directives
the text has its lines and the line feeds of its statements. -/
theorem references_sourceOf (segments : List Segment) :
    references (sourceOf segments) = segments.filterMap Segment.reference? ∧
      stripped (sourceOf segments) = String.ofList (segments.flatMap Segment.remainder) := by
  constructor
  · rw [references, sourceOf, String.toList_ofList, pieces_text]
    induction segments with
    | nil => rfl
    | cons segment rest ih =>
      rw [List.flatMap_cons, Text.found_append, List.map_append, ih, segment.found_pieces, List.filterMap_cons]
      cases segment.reference? <;> rfl
  · rw [stripped, sourceOf, String.toList_ofList, remainder_pieces_text]

end SolidityBuild.Source.Import
