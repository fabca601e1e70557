import SolidityBuild.Proofs.CommentedDirectives

/-!
# Blanked comments

Where no directive stands on a line that begins within a comment, and comments within directives are orderly, blanking
out the bodies of all comments changes nothing of what is found (`references_blankComments`). Each of these conditions
is needed (`references_blankComments_ne`).
-/

namespace SolidityBuild.Source.Import

open Text (isBlank cut found startsLine Piece)

variable {keep : Char → Char} {ls rest : List Lexeme} {atStart : Bool}

/-! ## Conditions -/

/-- If a directive is read at the front of a text, with its comments or with them blanked out, they are orderly. -/
def Spares (ls : List Lexeme) : Prop :=
  (directive (shown id ls)).isSome = true ∨ (directive (shown blankOut ls)).isSome = true → Orderly (behindWord ls)

instance (ls : List Lexeme) : Decidable (Spares ls) := inferInstanceAs (Decidable (_ ∨ _ → _))

/-- Whether no directive is read behind the line feeds of a text, which is followed by another one. -/
def NothingBehind : (cs rest : List Char) → Prop
  | [], _ => True
  | c :: cs, rest => (c = '\n' → (directive (cs ++ rest)).isSome = false) ∧ NothingBehind cs rest

instance decideNothingBehind : (cs rest : List Char) → Decidable (NothingBehind cs rest)
  | [], _ => .isTrue trivial
  | c :: cs, rest =>
    have := decideNothingBehind cs rest
    inferInstanceAs (Decidable ((c = '\n' → (directive (cs ++ rest)).isSome = false) ∧ NothingBehind cs rest))

/-- Whether comments have no influence on what is found: no directive stands on a line that begins within a comment,
and where one stands, its comments are orderly. -/
def Clear : (atStart : Bool) → List Lexeme → Prop
  | _, [] => True
  | atStart, l :: rest => (atStart = true → Spares (l :: rest)) ∧ NothingBehind l.body (l.closing ++ shown id rest) ∧
      Clear (startsLine atStart (l.shown id)) rest

instance decideClear : (atStart : Bool) → (ls : List Lexeme) → Decidable (Clear atStart ls)
  | _, [] => .isTrue trivial
  | atStart, l :: rest =>
    have := decideClear (startsLine atStart (l.shown id)) rest
    inferInstanceAs (Decidable (_ ∧ _ ∧ _))

theorem Clear.right {front : List Lexeme} (clear : Clear atStart (front ++ ls)) :
    Clear (startsLine atStart (shown id front)) ls := by
  induction front generalizing atStart with
  | nil => exact clear
  | cons l front ih =>
    rw [shown_cons, Text.startsLine_append]
    exact ih clear.2.2

theorem directive_of_nothingBehind {cs before behind rest : List Char} (nothing : NothingBehind cs rest)
    (split : cs = before ++ '\n' :: behind) : directive (behind ++ rest) = none := by
  induction before generalizing cs with
  | nil =>
    rw [split] at nothing
    exact Option.isSome_eq_false_iff.mp (nothing.1 rfl) |> Option.isNone_iff_eq_none.mp
  | cons c before ih =>
    rw [split] at nothing
    exact ih nothing.2 rfl

/-! ## Lexemes without directives -/

theorem lineFeed_iff (shows : Shows keep) (c : Char) : keep c = '\n' ↔ c = '\n' := by
  rcases shows with rfl | rfl
  · rfl
  · unfold blankOut
    split
    · rfl
    · next other =>
      constructor
      · intro same
        cases same
      · rintro rfl
        exact absurd (by decide) other

theorem startsLine_map (shows : Shows keep) (cs : List Char) :
    startsLine atStart (cs.map keep) = startsLine atStart cs := by
  induction cs generalizing atStart with
  | nil => rfl
  | cons c rest ih =>
    rw [List.map_cons, startsLine, startsLine, ih]
    simp only [lineFeed_iff shows]

/-- Where the lines begin does not depend on how comments are shown. -/
theorem startsLine_shown (shows : Shows keep) (l : Lexeme) :
    startsLine atStart (l.shown keep) = startsLine atStart (l.shown id) := by
  rw [Lexeme.shown, Lexeme.shown, Text.startsLine_append, Text.startsLine_append, Text.startsLine_append,
    Text.startsLine_append, startsLine_map shows, List.map_id]

/-- No directive is read at white space that is followed by nothing or by an asterisk. -/
theorem directive_of_blank {gap behind : List Char} (blank : ∀ c ∈ gap, isBlank c = true)
    (follows : behind = [] ∨ ∃ more, behind = '*' :: more) : directive (gap ++ behind) = none := by
  refine directive_eq_none ?_
  induction gap with
  | nil =>
    rcases follows with rfl | ⟨more, rfl⟩
    · decide
    · rw [List.nil_append, List.dropWhile_cons_of_neg (by decide)]
      intro keyword
      exact absurd (List.cons_prefix_cons.mp keyword).1 (by decide)
  | cons c gap ih =>
    rw [List.cons_append]
    by_cases indents : isIndent c = true
    · rw [List.dropWhile_cons_of_pos indents]
      exact ih fun d mem => blank d (List.mem_cons_of_mem _ mem)
    · have word : "import".toList = 'i' :: "mport".toList := rfl
      rw [List.dropWhile_cons_of_neg indents, word]
      intro keyword
      obtain ⟨rfl, _⟩ := List.cons_prefix_cons.mp keyword
      exact absurd (blank 'i' (by simp)) (by decide)

/-- Within a comment, no directive is read, if none is read there in the text as it is. -/
theorem directive_within (shows : Shows keep) {l : Lexeme} (ended : l.isClosed = false → rest = [])
    (nothing : NothingBehind l.body (l.closing ++ shown id rest)) {before behind : List Char}
    (split : l.body.map keep = before ++ '\n' :: behind) :
    directive (behind ++ (l.closing ++ shown keep rest)) = none := by
  rcases shows with rfl | rfl
  · rw [List.map_id] at split
    exact directive_of_nothingBehind nothing split
  · have blank : ∀ c ∈ behind, isBlank c = true := by
      intro c mem
      have inside : c ∈ l.body.map blankOut := by simp [split, mem]
      obtain ⟨d, _, rfl⟩ := List.mem_map.mp inside
      exact isBlank_blankOut d
    refine directive_of_blank blank ?_
    cases l with
    | char c => cases before <;> cases split
    | line body stop =>
      have inside : '\n' ∈ body.1.map blankOut := by
        have whole : body.1.map blankOut = before ++ '\n' :: behind := split
        simp [whole]
      obtain ⟨c, mem, same⟩ := List.mem_map.mp inside
      rw [lineFeed_iff (.inr rfl)] at same
      rw [same] at mem
      exact absurd (body.2 _ mem) (by decide)
    | block body closed =>
      cases closed with
      | true => exact .inr ⟨_, rfl⟩
      | false =>
        rw [ended rfl]
        exact .inl rfl

theorem eq_nil_of_singleton {front back : List Char} {c d : Char} (split : [d] = front ++ c :: back) : back = [] := by
  cases front with
  | nil => exact (List.cons_eq_cons.mp split).2.symm
  | cons e front => cases front <;> cases (List.cons_eq_cons.mp split).2

/-- What begins a lexeme has no line feed, unless it is all of it. -/
theorem opening_lineFeed {l : Lexeme} {front back : List Char}
    (split : l.opening ++ (l.body.map keep ++ l.closing) = front ++ '\n' :: back) : back = [] ∨ '\n' ∉ l.opening := by
  cases l with
  | char d => exact .inl (eq_nil_of_singleton split)
  | line _ _ =>
    have slashes : '\n' ∉ ['/', '/'] := by decide
    exact .inr slashes
  | block _ _ =>
    have signs : '\n' ∉ ['/', '*'] := by decide
    exact .inr signs

/-- What ends a comment has no line feed but at its end. -/
theorem closing_lineFeed {l : Lexeme} {front back : List Char} (split : l.closing = front ++ '\n' :: back) :
    back = [] := by
  cases l with
  | char c => cases front <;> cases split
  | line body stop =>
    cases stop with
    | none => cases front <;> cases split
    | some stop => exact eq_nil_of_singleton split
  | block body closed =>
    have inside : '\n' ∈ (Lexeme.block body closed).closing := by simp [split]
    cases closed with
    | false => cases inside
    | true =>
      have notInside : '\n' ∉ ['*', '/'] := by decide
      exact absurd inside notInside

/-- A lexeme at which no directive stands is passed over character by character. -/
theorem cut_lexeme (shows : Shows keep) {l : Lexeme} (ended : l.isClosed = false → rest = [])
    (here : atStart = true → directive (shown keep (l :: rest)) = none)
    (nothing : NothingBehind l.body (l.closing ++ shown id rest)) :
    cut directive atStart (shown keep (l :: rest)) =
      (l.shown keep).map .char ++ cut directive (startsLine atStart (l.shown id)) (shown keep rest) := by
  rw [← startsLine_shown shows]
  refine Text.cut_stretch directive fun before back split nonempty start => ?_
  rcases List.eq_nil_or_concat before with rfl | ⟨front, c, rfl⟩
  · rw [List.nil_append] at split
    rw [← split]
    exact here start
  · rw [List.concat_eq_append, Text.startsLine_concat, decide_eq_true_eq] at start
    rw [List.concat_eq_append, start, List.append_assoc, List.singleton_append, Lexeme.shown] at split
    -- The line feed is neither where the lexeme opens nor where it closes.
    have opens := (opening_lineFeed split).resolve_left nonempty
    obtain ⟨inner, rfl, later⟩ := exists_behind (forall_ne_iff.mpr opens) (by simp) split
    rcases List.append_eq_append_iff.mp later with ⟨more, _, closes⟩ | ⟨inside, within, behind⟩
    · exact absurd (closing_lineFeed closes) nonempty
    · cases inside with
      | nil =>
        have closes : l.closing = [] ++ '\n' :: back := behind.symm
        exact absurd (closing_lineFeed closes) nonempty
      | cons d inside =>
        obtain ⟨rfl, rfl⟩ := List.cons_eq_cons.mp (behind.trans List.cons_append)
        rw [List.append_assoc]
        exact directive_within shows ended nothing within

/-! ## Directives that are found -/

/-- A directive that is read with its comments or with them blanked out is read in both ways, and the same text
follows. -/
theorem exists_both (ended : Ended ls) (spares : Spares ls)
    (reads : (directive (shown id ls)).isSome = true ∨ (directive (shown blankOut ls)).isSome = true) :
    ∃ front back reference, ls = front ++ .char ';' :: back ∧
      (∃ rest, directive (shown id ls) = some (reference, rest) ∧ rest.1 = shown id back) ∧
      ∃ rest, directive (shown blankOut ls) = some (reference, rest) ∧ rest.1 = shown blankOut back := by
  have orderly := spares reads
  rcases reads with reads | reads
  · obtain ⟨⟨reference, rest⟩, read⟩ := Option.isSome_iff_exists.mp reads
    obtain ⟨front, back, split, left, other⟩ := directive_shown (.inl rfl) (.inr rfl) ended orderly read
    exact ⟨front, back, reference, split, ⟨rest, read, left⟩, other⟩
  · obtain ⟨⟨reference, rest⟩, read⟩ := Option.isSome_iff_exists.mp reads
    obtain ⟨front, back, split, left, other⟩ := directive_shown (.inr rfl) (.inl rfl) ended orderly read
    exact ⟨front, back, reference, split, other, ⟨rest, read, left⟩⟩

/-- What is found does not depend on how comments are shown. -/
theorem found_shown (ended : Ended ls) (clear : Clear atStart ls) :
    found (cut directive atStart (shown blankOut ls)) = found (cut directive atStart (shown id ls)) := by
  induction length : ls.length using Nat.strongRecOn generalizing ls atStart with
  | ind size ih =>
    subst length
    cases ls with
    | nil => rfl
    | cons l rest =>
      by_cases stands : atStart = true ∧
          ((directive (shown id (l :: rest))).isSome = true ∨ (directive (shown blankOut (l :: rest))).isSome = true)
      · obtain ⟨rfl, reads⟩ := stands
        obtain ⟨front, back, reference, split, ⟨rest₁, read₁, left₁⟩, rest₂, read₂, left₂⟩ :=
          exists_both ended (clear.1 rfl) reads
        rw [Text.cut_true_of_some read₁, Text.cut_true_of_some read₂, left₁, left₂]
        have behind : l :: rest = (front ++ [.char ';']) ++ back := by rw [split]; simp
        have shorter : back.length < (l :: rest).length := by
          rw [behind, List.length_append, List.length_append, List.length_singleton]
          omega
        rw [behind] at ended clear
        have clear' := clear.right
        rw [shown_append, shown_singleton, Lexeme.shown_char, Text.startsLine_concat] at clear'
        exact congrArg (reference :: ·) (ih back.length shorter ended.right clear' rfl)
      · have here {keep : Char → Char} (shows : Shows keep) (start : atStart = true) :
            directive (shown keep (l :: rest)) = none := by
          rw [← Option.not_isSome_iff_eq_none]
          intro reads
          refine stands ⟨start, ?_⟩
          rcases shows with rfl | rfl
          · exact .inl reads
          · exact .inr reads
        rw [cut_lexeme (.inl rfl) ended.1 (here (.inl rfl)) clear.2.1,
          cut_lexeme (.inr rfl) ended.1 (here (.inr rfl)) clear.2.1, Text.found_append, Text.found_append,
          Text.found_chars, Text.found_chars]
        exact ih rest.length (by simp) ended.2 clear.2.2 rfl

/-- Blanking out the bodies of comments changes nothing of what is found, if comments have no influence. -/
theorem references_blankComments (source : String) (clear : Clear true (lexemes none source.toList)) :
    references (blankComments source) = references source := by
  have found := found_shown (ended_lexemes none source.toList) clear
  rw [shown_lexemes] at found
  rw [references, references, blankComments, String.toList_ofList]
  exact congrArg (List.map String.ofList) found

/-- Comments around directives and within them, and text that looks like them in a string. -/
theorem references_blankComments_sample :
    let source := "// import \"x\";\n/* import \"y\";\n*/ import \"z\";\nimport /* one */ * as A // two\n  from \"a\" " ++
      "/* three */;\nstring s = \"/*\";\nimport \"b//c\"; // four\n"
    references (blankComments source) = references source ∧ references source = ["a", "b//c"] := by
  intro source
  exact ⟨references_blankComments source (by decide +kernel), by decide +kernel⟩

/-- Each condition is needed. In turn: a directive within a comment is found; a comment hides the mark, or feigns the word;
it is part of the reference; it hides the semicolon, and with it the next directive. -/
theorem references_blankComments_ne :
    let within := "/*\nimport \"a\";\n*/\n"
    let hidden := "import * as A /* ; */ from \"a\";\n"
    let feigned := "import * as A from // from\n\"a\";\n"
    let quoted := "import \"a\n// b\n\";\n"
    let ended := "import \"a\" // ;\nimport \"b\";\n"
    references (blankComments within) ≠ references within ∧ references (blankComments hidden) ≠ references hidden ∧
      references (blankComments feigned) ≠ references feigned ∧ references (blankComments quoted) ≠ references quoted ∧
      references (blankComments ended) ≠ references ended := by
  decide +kernel

end SolidityBuild.Source.Import
