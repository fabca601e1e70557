import SolidityBuild.Source.Import
import SolidityBuild.Proofs.LineStarts
import Mathlib.Data.List.TakeWhile

/-!
# Directives as they are written

A directive is read at the front of a text exactly if the text begins with one: what the text begins with is
read whatever follows (`Directive.read`), and what is read stands there (`exists_directive`).
-/

namespace SolidityBuild

namespace Source.Import

open Text (eq_of_dropWhile takeWhile_stop dropWhile_stop)

theorem endsClause_of_isBlank {c : Char} (blank : Text.isBlank c = true) : endsClause c = false := by
  by_cases ends : endsClause c = true
  · simp only [endsClause, isQuote, Bool.or_eq_true, decide_eq_true_eq] at ends
    rcases ends with rfl | rfl | rfl <;> exact absurd blank (by decide)
  · simpa using ends

/-- A directive in its parts: the indentation, the text between the word `import` and the reference, the
reference between two equal marks, and the text up to the semicolon. -/
structure Directive where
  indent : List Char
  clause : List Char
  mark : Char
  reference : List Char
  trailer : List Char
  indented : ∀ c ∈ indent, isIndent c = true
  unended : ∀ c ∈ clause, endsClause c = false
  introduces : isClause clause = true
  quotes : isQuote mark = true
  unmarked : mark ∉ reference
  unfinished : ';' ∉ trailer

namespace Directive

variable (d : Directive) (rest : List Char)

/-- The text of a directive, from its indentation to its semicolon. -/
def text : List Char :=
  d.indent ++ ("import".toList ++ (d.clause ++ d.mark :: (d.reference ++ d.mark :: (d.trailer ++ [';']))))

theorem text_append : d.text ++ rest =
    d.indent ++ ("import".toList ++ (d.clause ++ d.mark :: (d.reference ++ d.mark :: (d.trailer ++ ';' :: rest)))) := by
  simp [text]

theorem length_rest : rest.length < (d.text ++ rest).length := by
  simp only [text, List.length_append, List.length_cons]
  omega

/-- A directive is read, whatever follows it. -/
theorem read : directive (d.text ++ rest) = some (d.reference, ⟨rest, d.length_rest rest⟩) := by
  have word : (d.text ++ rest).dropWhile isIndent =
      "import".toList ++ (d.clause ++ d.mark :: (d.reference ++ d.mark :: (d.trailer ++ ';' :: rest))) := by
    rw [text_append]
    exact dropWhile_stop d.indented (by decide)
  have goes : ∀ c ∈ d.clause, (!endsClause c) = true := by
    intro c mem
    simp [d.unended c mem]
  have ends : (!endsClause d.mark) = false := by simp [endsClause, d.quotes]
  have marked : ∀ c ∈ d.reference, decide (c ≠ d.mark) = true := by
    intro c mem
    simp only [decide_eq_true_eq]
    rintro rfl
    exact d.unmarked mem
  have finished : ∀ c ∈ d.trailer, decide (c ≠ ';') = true := by
    intro c mem
    simp only [decide_eq_true_eq]
    rintro rfl
    exact d.unfinished mem
  unfold directive
  rw [word, Text.isPrefixOf?_append]
  simp only [bind, Option.bind]
  rw [dropWhile_stop goes ends, takeWhile_stop goes ends]
  simp only [d.quotes, d.introduces, Bool.and_self, if_true]
  rw [dropWhile_stop marked (by simp), takeWhile_stop marked (by simp)]
  simp only
  rw [dropWhile_stop finished (by decide)]
  exact Text.shorter?_eq (d.length_rest rest)

end Directive

/-- What is read at the front of a text is a directive with which the text begins. -/
theorem exists_directive {cs reference : List Char} {rest : Text.Rest cs}
    (reads : directive cs = some (reference, rest)) : ∃ d : Directive, d.reference = reference ∧ cs = d.text ++ rest.1 := by
  unfold directive at reads
  obtain ⟨behind, word, reads⟩ := Option.bind_eq_some_iff.mp reads
  cases atMark : behind.dropWhile (!endsClause ·) with
  | nil =>
    rw [atMark] at reads
    cases reads
  | cons mark quoted =>
  rw [atMark] at reads
  dsimp only at reads
  by_cases proper : (isQuote mark && isClause (behind.takeWhile (!endsClause ·))) = true
  · rw [if_pos proper] at reads
    rw [Bool.and_eq_true] at proper
    cases atEnd : quoted.dropWhile (· ≠ mark) with
    | nil =>
      rw [atEnd] at reads
      cases reads
    | cons mark' trailing =>
    rw [atEnd] at reads
    dsimp only at reads
    cases atSemicolon : trailing.dropWhile (· ≠ ';') with
    | nil =>
      rw [atSemicolon] at reads
      cases reads
    | cons semicolon after =>
    rw [atSemicolon] at reads
    dsimp only [Text.shorter?] at reads
    split at reads
    · cases reads
      obtain ⟨clause, _⟩ := eq_of_dropWhile atMark
      obtain ⟨inside, closes⟩ := eq_of_dropWhile atEnd
      obtain ⟨trailer, ends⟩ := eq_of_dropWhile atSemicolon
      obtain rfl : mark' = mark := by simpa using closes
      obtain rfl : semicolon = ';' := by simpa using ends
      refine ⟨⟨cs.takeWhile isIndent, behind.takeWhile (!endsClause ·), mark', quoted.takeWhile (· ≠ mark'),
        trailing.takeWhile (· ≠ ';'), fun c mem => List.mem_takeWhile_imp mem, ?_, proper.2, proper.1, ?_, ?_⟩, rfl, ?_⟩
      · intro c mem
        simpa using List.mem_takeWhile_imp mem
      · intro mem
        simpa using List.mem_takeWhile_imp mem
      · intro mem
        simpa using List.mem_takeWhile_imp mem
      · have keyword := Text.eq_append_of_isPrefixOf? word
        rw [Directive.text_append]
        dsimp only
        rw [← trailer, ← inside, ← clause, ← keyword, List.takeWhile_append_dropWhile]
    · cases reads
  · rw [if_neg proper] at reads
    cases reads

/-- Nothing is read at the front of a text that does not start with the word. -/
theorem directive_eq_none {cs : List Char} (other : ¬"import".toList <+: cs.dropWhile isIndent) :
    directive cs = none := by
  cases read : directive cs with
  | none => rfl
  | some pair =>
    obtain ⟨behind, word, _⟩ := Option.bind_eq_some_iff.mp read
    exact absurd ⟨behind, (Text.eq_append_of_isPrefixOf? word).symm⟩ other

end Source.Import

end SolidityBuild
