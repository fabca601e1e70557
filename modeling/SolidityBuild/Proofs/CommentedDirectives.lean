import SolidityBuild.Proofs.Comments
import Mathlib.Data.List.Induction

/-!
# Directives with comments

A directive reads over comments as over any other text, so a comment in it can hide the mark, the word or the semicolon
that is meant, or feign one. Where no comment does (`Orderly`), each part of the directive is made up of lexemes of its
own (`Layout`), and the directive is read in the same way with its comments blanked out (`directive_shown`).
-/

namespace SolidityBuild.Source.Import

open Text (isBlank trimEnd)

variable {keep : Char → Char} {ls : List Lexeme}

/-! ## Clauses -/

/-- What stands for a lexeme where its text does not matter. -/
def skeleton : Lexeme → Char
  | .char c => c
  | .line _ _ => '/'
  | .block _ _ => '/'

/-- Whether a lexeme is white space outside of comments. -/
def isGap : Lexeme → Bool := Lexeme.isSign isBlank

/-- Whether the last thing but white space is a comment behind two slashes that ends in `from`. -/
def feignsFrom (ls : List Lexeme) : Bool :=
  match ls.reverse.dropWhile isGap with
  | .line body _ :: _ => "from".toList.isSuffixOf (trimEnd body.1)
  | _ => false

/-- A clause that ends in something visible is introduced by `from`. -/
theorem isClause_append {c : Char} (visible : isBlank c = false) (front back : List Char) :
    isClause (front ++ c :: back) = "from".toList.isSuffixOf (front ++ c :: trimEnd back) := by
  have notEmpty : (front ++ c :: trimEnd back).isEmpty = false := by simp
  rw [isClause, Text.trimEnd_append visible, notEmpty, Bool.false_or]

theorem isClause_concat {c : Char} (visible : isBlank c = false) (front : List Char) :
    isClause (front ++ [c]) = "from".toList.isSuffixOf (front ++ [c]) := isClause_append visible front []

theorem isClause_append_gap {gap : List Char} (blank : ∀ c ∈ gap, isBlank c = true) (cs : List Char) :
    isClause (cs ++ gap) = isClause cs := by
  rw [isClause, isClause, Text.trimEnd_gap blank]

/-- A word does not reach over a character that is not one of its own. -/
theorem suffix_of_suffix_append {word front back : List Char} {c : Char} (other : c ∉ word)
    (suffix : word <:+ front ++ c :: back) : word <:+ back := by
  have part : c :: back <:+ front ++ c :: back := List.suffix_append ..
  rcases List.suffix_or_suffix_of_suffix suffix part with inside | beyond
  · rcases List.suffix_cons_iff.mp inside with whole | within
    · exact absurd (by simp [whole]) other
    · exact within
  · exact absurd (beyond.subset (by simp)) other

/-- The last character of a comment that is closed. -/
theorem exists_last {l : Lexeme} (closed : l.isClosed = true) (notChar : ∀ c, l ≠ .char c) (keep : Char → Char) :
    ∃ front c, l.shown keep = front ++ [c] ∧ (c = '/' ∨ isBlank c = true) := by
  cases l with
  | char c => exact absurd rfl (notChar c)
  | line body stop =>
    cases stop with
    | none => cases closed
    | some stop =>
      exact ⟨'/' :: '/' :: body.1.map keep, stop, by simp [Lexeme.shown_line], .inr (isBlank_of_endsLine stop.2)⟩
  | block body isClosed =>
    obtain rfl : isClosed = true := closed
    exact ⟨'/' :: '*' :: (body.map keep ++ ['*']), '/', by simp [Lexeme.shown_block], .inl rfl⟩

/-- A word without white space and slashes at the end of a text stands outside of comments. -/
theorem suffix_shown_iff {word : List Char} (plain : ∀ c ∈ word, c ≠ '/' ∧ isBlank c = false)
    (closed : ∀ l ∈ ls, l.isClosed = true) : word <:+ shown keep ls ↔ word <:+ ls.map skeleton := by
  induction ls using List.reverseRecOn generalizing word with
  | nil => rfl
  | append_singleton ls l ih =>
    have before : ∀ l ∈ ls, l.isClosed = true := fun l mem => closed l (List.mem_append_left _ mem)
    rw [shown_append, List.map_append, List.map_singleton]
    by_cases comment : ∃ c, l = .char c
    · obtain ⟨c, rfl⟩ := comment
      rw [shown_singleton, Lexeme.shown_char, skeleton, List.suffix_concat_iff, List.suffix_concat_iff]
      refine or_congr_right (exists_congr fun init => and_congr_right fun same => ?_)
      exact ih (fun d mem => plain d (by simp [same, mem])) before
    · have notChar : ∀ c, l ≠ .char c := fun c same => comment ⟨c, same⟩
      obtain ⟨front, c, text, last⟩ := exists_last (closed l (by simp)) notChar keep
      have sign : skeleton l = '/' := by
        cases l with
        | char c => exact absurd rfl (notChar c)
        | line _ _ => rfl
        | block _ _ => rfl
      rw [shown_singleton, text, sign, ← List.append_assoc, List.suffix_concat_iff, List.suffix_concat_iff]
      have ends {d : Char} (strange : d = '/' ∨ isBlank d = true) (init : List Char) : word ≠ init ++ [d] := by
        rintro rfl
        obtain ⟨notSlash, visible⟩ := plain d (by simp)
        rcases strange with same | blank
        · exact notSlash same
        · exact absurd (blank.symm.trans visible) (by simp)
      refine or_congr_right ⟨?_, ?_⟩
      · rintro ⟨init, same, _⟩
        exact absurd same (ends last init)
      · rintro ⟨init, same, _⟩
        exact absurd same (ends (.inl rfl) init)

theorem from_plain : ∀ c ∈ "from".toList, c ≠ '/' ∧ isBlank c = false := by
  have all : "from".toList.all (fun c => decide (c ≠ '/') && !isBlank c) = true := by decide
  simpa only [List.all_eq_true, Bool.and_eq_true, decide_eq_true_eq, Bool.not_eq_true'] using all

/-- Lexemes end in white space outside of comments, behind something else or nothing. -/
theorem exists_gap (ls : List Lexeme) :
    ∃ (others : List Lexeme) (gap : List Char), ls = others ++ gap.map .char ∧ (∀ c ∈ gap, isBlank c = true) ∧
      (others = [] ∨ ∃ front l, others = front ++ [l] ∧ isGap l = false) := by
  induction ls using List.reverseRecOn with
  | nil => exact ⟨[], [], rfl, by simp, .inl rfl⟩
  | append_singleton ls l ih =>
    cases isGap_l : isGap l with
    | false => exact ⟨ls ++ [l], [], by simp, by simp, .inr ⟨ls, l, rfl, isGap_l⟩⟩
    | true =>
      cases l with
      | line _ _ => cases isGap_l
      | block _ _ => cases isGap_l
      | char c =>
        obtain ⟨others, gap, rfl, blank, front⟩ := ih
        refine ⟨others, gap ++ [c], by simp, fun d mem => ?_, front⟩
        rcases List.mem_append.mp mem with before | last
        · exact blank d before
        · rw [List.mem_singleton.mp last]
          exact isGap_l

theorem feignsFrom_append_gap {gap : List Char} (blank : ∀ c ∈ gap, isBlank c = true) (others : List Lexeme) :
    feignsFrom (others ++ gap.map .char) = feignsFrom others := by
  have gaps : ∀ l ∈ (gap.map Lexeme.char).reverse, isGap l = true := by
    intro l mem
    obtain ⟨c, inside, rfl⟩ := List.mem_map.mp (List.mem_reverse.mp mem)
    exact blank c inside
  rw [feignsFrom, feignsFrom, List.reverse_append, List.dropWhile_append_of_pos gaps]

theorem map_skeleton_chars (cs : List Char) : (cs.map Lexeme.char).map skeleton = cs := by
  rw [List.map_map]
  exact List.map_id _

/-- Behind a comment, no reference is introduced. -/
theorem isClause_concat_of_ne {c : Char} (visible : isBlank c = false) (other : c ≠ 'm') (cs : List Char) :
    isClause (cs ++ [c]) = false := by
  rw [isClause_concat visible, ← Bool.not_eq_true, List.isSuffixOf_iff_suffix, List.suffix_concat_iff]
  rintro (void | ⟨init, same, _⟩)
  · cases void
  · have last := congrArg List.getLast? same
    rw [List.getLast?_concat] at last
    exact other (Option.some.inj last).symm

/-- A comment behind two slashes introduces no reference, unless it feigns the word. -/
theorem isClause_line (shows : Shows keep) (front : List Char) (body : LineText) (stop : Option LineEnd)
    (silent : "from".toList.isSuffixOf (trimEnd body.1) = false) :
    isClause (front ++ (Lexeme.line body stop).shown keep) = false := by
  have ends : ∀ c ∈ (stop.map (·.1)).toList, isBlank c = true := by
    intro c mem
    cases stop with
    | none => cases mem
    | some stop =>
      rw [List.mem_singleton.mp mem]
      exact isBlank_of_endsLine stop.2
  have text : front ++ (Lexeme.line body stop).shown keep =
      front ++ ['/'] ++ '/' :: body.1.map keep ++ (stop.map (·.1)).toList := by simp [Lexeme.shown_line]
  rw [text, isClause_append_gap ends, isClause_append (by decide), ← Bool.not_eq_true, List.isSuffixOf_iff_suffix]
  intro suffix
  have inside := suffix_of_suffix_append (by decide) suffix
  rcases shows with rfl | rfl
  · rw [List.map_id] at inside
    rw [← Bool.not_eq_true, List.isSuffixOf_iff_suffix] at silent
    exact silent inside
  · have blank : ∀ c ∈ body.1.map blankOut, isBlank c = true := by
      intro c mem
      obtain ⟨d, _, rfl⟩ := List.mem_map.mp mem
      exact isBlank_blankOut d
    rw [Text.trimEnd_of_blank blank] at inside
    exact absurd (List.suffix_nil.mp inside) (by decide)

/-- Whether a clause introduces a reference does not depend on how its comments are shown, unless one feigns the
word. -/
theorem isClause_shown (shows : Shows keep) (closed : ∀ l ∈ ls, l.isClosed = true) (silent : feignsFrom ls = false) :
    isClause (shown keep ls) = isClause (ls.map skeleton) := by
  obtain ⟨others, gap, rfl, blank, last⟩ := exists_gap ls
  rw [feignsFrom_append_gap blank] at silent
  rw [shown_append, shown_chars, List.map_append, map_skeleton_chars, isClause_append_gap blank,
    isClause_append_gap blank]
  rcases last with rfl | ⟨front, l, rfl, visible⟩
  · rfl
  rw [shown_append, shown_singleton, List.map_append, List.map_singleton]
  cases l with
  | char c =>
    have suffix : "from".toList <:+ shown keep (front ++ [.char c]) ↔
        "from".toList <:+ (front ++ [Lexeme.char c]).map skeleton :=
      suffix_shown_iff from_plain fun l mem => closed l (List.mem_append_left _ mem)
    rw [shown_append, shown_singleton, List.map_append, List.map_singleton] at suffix
    rw [Lexeme.shown_char, skeleton] at suffix ⊢
    rw [isClause_concat visible, isClause_concat visible]
    exact Bool.eq_iff_iff.mpr (by simpa only [List.isSuffixOf_iff_suffix] using suffix)
  | line body stop =>
    have feigns : feignsFrom (front ++ [.line body stop]) = "from".toList.isSuffixOf (trimEnd body.1) := by
      rw [feignsFrom, List.reverse_append, List.reverse_singleton, List.singleton_append,
        List.dropWhile_cons_of_neg (by simp [visible])]
    rw [feigns] at silent
    rw [isClause_line shows _ body stop silent, skeleton, isClause_concat_of_ne (by decide) (by decide)]
  | block body isClosed =>
    obtain rfl : isClosed = true := closed (.block body isClosed) (by simp)
    have text : (Lexeme.block body true).shown keep = '/' :: '*' :: (body.map keep ++ ['*']) ++ ['/'] := by
      simp [Lexeme.shown_block]
    rw [text, ← List.append_assoc, isClause_concat_of_ne (by decide) (by decide), skeleton,
      isClause_concat_of_ne (by decide) (by decide)]

/-! ## The parts of a directive -/

/-- The lexemes behind the word `import`. -/
def behindWord (ls : List Lexeme) : List Lexeme := (ls.dropWhile (·.isSign isIndent)).drop "import".length

/-- The lexemes in front of the first mark or semicolon outside of comments. -/
def clauseOf (ls : List Lexeme) : List Lexeme := ls.takeWhile (!·.isSign endsClause)

/-- The mark, and the lexemes behind it. -/
def quotedOf (ls : List Lexeme) : Char × List Lexeme :=
  match ls.dropWhile (!·.isSign endsClause) with
  | .char mark :: quoted => (mark, quoted)
  | _ => (';', [])

/-- The lexemes between the marks. -/
def referenceOf (ls : List Lexeme) : List Lexeme :=
  (quotedOf ls).2.takeWhile (!·.isSign (· = (quotedOf ls).1))

/-- The lexemes between the second mark and the semicolon. -/
def trailerOf (ls : List Lexeme) : List Lexeme :=
  ((quotedOf ls).2.dropWhile (!·.isSign (· = (quotedOf ls).1))).tail.takeWhile (!·.isSign (· = ';'))

/-- Whether the comments of a directive are out of its way; the directive is given by what follows its word. -/
structure Orderly (ls : List Lexeme) : Prop where
  /-- No comment in front of the reference has a mark or a semicolon. -/
  clause : ∀ l ∈ clauseOf ls, ∀ c ∈ l.body, endsClause c = false
  /-- The last one is not a comment behind two slashes that ends in `from`. -/
  silent : feignsFrom (clauseOf ls) = false
  /-- Comments between the marks are blank. -/
  reference : ∀ l ∈ referenceOf ls, l.shown blankOut = l.shown id
  /-- No comment behind the reference has a semicolon. -/
  trailer : ∀ l ∈ trailerOf ls, ';' ∉ l.body

theorem orderly_iff : Orderly ls ↔ (∀ l ∈ clauseOf ls, ∀ c ∈ l.body, endsClause c = false) ∧
    feignsFrom (clauseOf ls) = false ∧ (∀ l ∈ referenceOf ls, l.shown blankOut = l.shown id) ∧
      ∀ l ∈ trailerOf ls, ';' ∉ l.body :=
  ⟨fun ⟨clause, silent, reference, trailer⟩ => ⟨clause, silent, reference, trailer⟩,
    fun ⟨clause, silent, reference, trailer⟩ => ⟨clause, silent, reference, trailer⟩⟩

instance (ls : List Lexeme) : Decidable (Orderly ls) :=
  have (l : Lexeme) : Decidable (∀ c ∈ l.body, endsClause c = false) := List.decidableBAll _ l.body
  decidable_of_iff' _ orderly_iff

/-! ## Reading -/

theorem foreign_endsClause : Foreign endsClause := ⟨by decide, by decide, fun _ => endsClause_of_isBlank⟩

theorem foreign_eq {sign : Char} (other : sign ≠ '/' ∧ sign ≠ '*' ∧ isBlank sign = false) : Foreign (· = sign) := by
  refine ⟨?_, ?_, fun c blank => ?_⟩
  · simpa using other.1.symm
  · simpa using other.2.1.symm
  · rw [decide_eq_false_iff_not]
    rintro rfl
    exact absurd (blank.symm.trans other.2.2) (by simp)

theorem foreign_of_isQuote {mark : Char} (quotes : isQuote mark = true) : Foreign (· = mark) := by
  simp only [isQuote, Bool.or_eq_true, decide_eq_true_eq] at quotes
  rcases quotes with rfl | rfl <;> exact foreign_eq (by decide)

/-- None of some characters is a sign. -/
theorem forall_ne_iff {sign : Char} {cs : List Char} : (∀ c ∈ cs, decide (c = sign) = false) ↔ sign ∉ cs := by
  constructor
  · intro others mem
    exact absurd (others sign mem) (by simp)
  · intro absent c mem
    rw [decide_eq_false_iff_not]
    rintro rfl
    exact absent mem

theorem behindWord_eq {indent : List Char} (indented : ∀ c ∈ indent, isIndent c = true) (ls : List Lexeme) :
    behindWord ((indent ++ "import".toList).map .char ++ ls) = ls := by
  have signs : ∀ l ∈ indent.map Lexeme.char, l.isSign isIndent = true := by
    intro l mem
    obtain ⟨c, inside, rfl⟩ := List.mem_map.mp mem
    exact indented c inside
  rw [behindWord, List.map_append, List.append_assoc, List.dropWhile_append_of_pos signs]
  rfl

theorem not_of_mem_takeWhile (shows : Shows keep) {p : Char → Bool} (foreign : Foreign p)
    (spares : ∀ l ∈ ls.takeWhile (!·.isSign p), ∀ c ∈ l.body, p c = false) :
    ∀ c ∈ shown keep (ls.takeWhile (!·.isSign p)), p c = false := by
  intro c mem
  obtain ⟨l, inside, here⟩ := List.mem_flatMap.mp mem
  have other : l.isSign p = false := by
    simpa using List.mem_takeWhile_imp inside
  exact l.not_of_mem_shown shows foreign other (spares l inside) c here

/-- A comment that is blank shows the same in both ways. -/
theorem shown_congr {keep' : Char → Char} (shows : Shows keep) (shows' : Shows keep')
    (blank : ∀ l ∈ ls, l.shown blankOut = l.shown id) : shown keep ls = shown keep' ls := by
  have same : ∀ l ∈ ls, l.shown keep = l.shown keep' := by
    intro l mem
    rcases shows with rfl | rfl <;> rcases shows' with rfl | rfl
    · rfl
    · exact (blank l mem).symm
    · exact blank l mem
    · rfl
  rw [shown, shown, List.flatMap_def, List.flatMap_def, List.map_congr_left same]

theorem isBlank_of_shown {l : Lexeme} (blank : l.shown blankOut = l.shown id) : ∀ c ∈ l.body, isBlank c = true := by
  have kept : l.body.map blankOut = l.body := by simpa [Lexeme.shown] using blank
  intro c mem
  rw [← kept] at mem
  obtain ⟨d, _, rfl⟩ := List.mem_map.mp mem
  exact isBlank_blankOut d

theorem dropWhile_eq {α : Type} {p : α → Bool} {xs back : List α} (split : xs = xs.takeWhile p ++ back) :
    xs.dropWhile p = back := by
  have whole := List.takeWhile_append_dropWhile (p := p) (l := xs)
  exact List.append_cancel_left (whole.trans split)

/-- The text of a directive, and what follows it, laid out in lexemes: the marks and the semicolon stand outside of
comments, and comments make no difference to what each part of the directive is. -/
structure Layout (keep : Char → Char) (d : Directive) (ls clause reference trailer back : List Lexeme) : Prop where
  whole : ls = (d.indent ++ "import".toList).map .char ++
    (clause ++ .char d.mark :: (reference ++ .char d.mark :: (trailer ++ .char ';' :: back)))
  clause_eq : shown keep clause = d.clause
  reference_eq : shown keep reference = d.reference
  unended : ∀ keep', Shows keep' → ∀ c ∈ shown keep' clause, endsClause c = false
  silent : feignsFrom clause = false
  blank : ∀ l ∈ reference, l.shown blankOut = l.shown id
  unfinished : ∀ keep', Shows keep' → ';' ∉ shown keep' trailer

/-- A directive with orderly comments is laid out in lexemes. -/
theorem exists_layout (shows : Shows keep) (ls : List Lexeme) (d : Directive) {rest : List Char}
    (orderly : Orderly (behindWord ls)) (whole : shown keep ls = d.text ++ rest) :
    ∃ clause reference trailer back, Layout keep d ls clause reference trailer back ∧ shown keep back = rest := by
  rw [d.text_append, ← List.append_assoc] at whole
  -- The word stands outside of comments.
  have plain : '/' ∉ d.indent ++ "import".toList := by
    rw [List.mem_append, not_or]
    exact ⟨fun mem => absurd (d.indented _ mem) (by decide), by decide⟩
  obtain ⟨behind, rfl, showsBehind⟩ := exists_chars plain whole
  rw [behindWord_eq d.indented] at orderly
  -- So does the first mark, as no comment in front of it has one.
  have ends : endsClause d.mark = true := by simp [endsClause, d.quotes]
  obtain ⟨quoted, clauseSplit, showsClause, showsQuoted⟩ :=
    exists_sign shows foreign_endsClause orderly.clause showsBehind d.unended ends
  have quotedOf_eq : quotedOf behind = (d.mark, quoted) := by rw [quotedOf, dropWhile_eq clauseSplit]
  -- So does the second one, as the comments between them are blank.
  have foreignMark := foreign_of_isQuote d.quotes
  have blank := orderly.reference
  rw [referenceOf, quotedOf_eq] at blank
  obtain ⟨trailing, referenceSplit, showsReference, showsTrailing⟩ :=
    exists_sign shows foreignMark (fun l mem c inside => foreignMark.blank c (isBlank_of_shown (blank l mem) c inside))
      showsQuoted (forall_ne_iff.mpr d.unmarked) (by simp)
  -- So does the semicolon, as no comment in front of it has one.
  have foreignSemicolon : Foreign (· = ';') := foreign_eq (by decide)
  have unfinished := orderly.trailer
  rw [trailerOf, quotedOf_eq, dropWhile_eq referenceSplit, List.tail_cons] at unfinished
  obtain ⟨back, trailerSplit, _, showsBack⟩ :=
    exists_sign shows foreignSemicolon (fun l mem => forall_ne_iff.mpr (unfinished l mem)) showsTrailing
      (forall_ne_iff.mpr d.unfinished) (by simp)
  refine ⟨_, _, trailing.takeWhile (!·.isSign (· = ';')), back, ⟨?_, showsClause, showsReference, fun keep' shows' => ?_,
    orderly.silent, blank, fun keep' shows' => ?_⟩, showsBack⟩
  · rw [← trailerSplit, ← referenceSplit, ← clauseSplit]
  · exact not_of_mem_takeWhile shows' foreign_endsClause orderly.clause
  · exact forall_ne_iff.mp (not_of_mem_takeWhile shows' foreignSemicolon fun l mem => forall_ne_iff.mpr (unfinished l mem))

/-- However its comments are shown, lexemes that lay out a directive show one with the same reference. -/
theorem Layout.exists_shown {keep' : Char → Char} {d : Directive} {clause quoted trailer back : List Lexeme}
    (layout : Layout keep d ls clause quoted trailer back) (shows : Shows keep) (shows' : Shows keep')
    (ended : Ended ls) :
    ∃ d' : Directive, d'.reference = d.reference ∧ shown keep' ls = d'.text ++ shown keep' back := by
  have closed : ∀ l ∈ clause, l.isClosed = true := by
    rw [layout.whole] at ended
    exact ended.right.isClosed (by simp)
  have introduces : isClause (shown keep' clause) = true := by
    rw [isClause_shown shows' closed layout.silent, ← isClause_shown shows closed layout.silent, layout.clause_eq]
    exact d.introduces
  have same : shown keep' quoted = d.reference := by
    rw [← layout.reference_eq, shown_congr shows' shows layout.blank]
  have char (c : Char) (rest : List Lexeme) : shown keep' (.char c :: rest) = c :: shown keep' rest := rfl
  have text : shown keep' ls = d.indent ++ ("import".toList ++ (shown keep' clause ++
      d.mark :: (d.reference ++ d.mark :: (shown keep' trailer ++ ';' :: shown keep' back)))) := by
    rw [layout.whole, shown_append, shown_chars, List.append_assoc, shown_append, char, shown_append, char,
      shown_append, char, same]
  refine ⟨⟨d.indent, shown keep' clause, d.mark, d.reference, shown keep' trailer, d.indented,
    layout.unended keep' shows', introduces, d.quotes, d.unmarked, layout.unfinished keep' shows'⟩, rfl, ?_⟩
  rw [Directive.text_append]
  exact text

/-- A directive with orderly comments is read in the same way however they are shown. -/
theorem directive_shown {keep' : Char → Char} (shows : Shows keep) (shows' : Shows keep') (ended : Ended ls)
    (orderly : Orderly (behindWord ls)) {reference : List Char} {rest : Text.Rest (shown keep ls)}
    (reads : directive (shown keep ls) = some (reference, rest)) :
    ∃ front back, ls = front ++ .char ';' :: back ∧ rest.1 = shown keep back ∧
      ∃ rest', directive (shown keep' ls) = some (reference, rest') ∧ rest'.1 = shown keep' back := by
  obtain ⟨d, rfl, whole⟩ := exists_directive reads
  obtain ⟨clause, quoted, trailer, back, layout, showsBack⟩ := exists_layout shows ls d orderly whole
  obtain ⟨d', same, text⟩ := layout.exists_shown shows shows' ended
  refine ⟨(d.indent ++ "import".toList).map .char ++ (clause ++ .char d.mark :: (quoted ++ .char d.mark :: trailer)),
    back, by rw [layout.whole]; simp, showsBack.symm, ?_⟩
  rw [text, ← same]
  exact ⟨_, d'.read _, rfl⟩

end SolidityBuild.Source.Import
