import SolidityBuild.Proofs.LineReading
import SolidityBuild.Text.Blank

/-!
# Line starts

What a recogniser finds in a text is told by what it makes of the text behind each line start: it finds nothing
exactly if it reads nothing at any of them (`found_cut_eq_nil_iff`), and a part of a text at whose line starts
it reads nothing stays as it is, whatever follows (`cut_stretch`).
-/

namespace SolidityBuild.Text

variable {α : Type}

/-! ## Spans -/

/-- The first character that a span stops at. -/
theorem eq_of_dropWhile {goesOn : Char → Bool} {cs rest : List Char} {c : Char}
    (stops : cs.dropWhile goesOn = c :: rest) : cs = cs.takeWhile goesOn ++ c :: rest ∧ goesOn c = false := by
  constructor
  · rw [← stops, List.takeWhile_append_dropWhile]
  · have notEmpty : cs.dropWhile goesOn ≠ [] := by simp [stops]
    have first := List.head_dropWhile_not goesOn notEmpty
    simpa [stops] using first

/-- A span ends in front of the first character that stops it. -/
theorem takeWhile_stop {goesOn : Char → Bool} {front back : List Char} {c : Char}
    (goes : ∀ d ∈ front, goesOn d = true) (stops : goesOn c = false) :
    (front ++ c :: back).takeWhile goesOn = front := by
  rw [List.takeWhile_append_of_pos goes, List.takeWhile_cons, stops]
  simp

theorem dropWhile_stop {goesOn : Char → Bool} {front back : List Char} {c : Char}
    (goes : ∀ d ∈ front, goesOn d = true) (stops : goesOn c = false) :
    (front ++ c :: back).dropWhile goesOn = c :: back := by
  rw [List.dropWhile_append_of_pos goes, List.dropWhile_cons, stops]
  simp

/-! ## White space at the end -/

theorem trimEnd_gap {gap : List Char} (blank : ∀ c ∈ gap, isBlank c = true) (cs : List Char) :
    trimEnd (cs ++ gap) = trimEnd cs := by
  have reversed : ∀ c ∈ gap.reverse, isBlank c = true := by
    intro c mem
    exact blank c (List.mem_reverse.mp mem)
  rw [trimEnd, trimEnd, List.reverse_append, List.dropWhile_append_of_pos reversed]

theorem trimEnd_of_blank {gap : List Char} (blank : ∀ c ∈ gap, isBlank c = true) : trimEnd gap = [] := by
  have trimmed := trimEnd_gap blank []
  rwa [List.nil_append] at trimmed

/-- A text that does not end in white space stays. -/
theorem trimEnd_append {c : Char} (visible : isBlank c = false) (front back : List Char) :
    trimEnd (front ++ c :: back) = front ++ c :: trimEnd back := by
  have whole : (front ++ c :: back).reverse = back.reverse ++ (c :: front.reverse) := by simp
  rw [trimEnd, whole, List.dropWhile_append]
  split
  · next blankBack =>
    have empty : trimEnd back = [] := by rw [trimEnd, List.isEmpty_iff.mp blankBack, List.reverse_nil]
    rw [empty, List.dropWhile_cons_of_neg (by simp [visible])]
    simp
  · rw [trimEnd]
    simp

theorem trimEnd_concat {c : Char} (visible : isBlank c = false) (cs : List Char) :
    trimEnd (cs ++ [c]) = cs ++ [c] := trimEnd_append visible cs []

/-! ## Line starts -/

/-- Whether a text that follows `cs` begins a line, if `atStart` says whether `cs` does. -/
def startsLine (atStart : Bool) : List Char → Bool
  | [] => atStart
  | c :: rest => startsLine (c = '\n') rest

theorem startsLine_append (atStart : Bool) (front back : List Char) :
    startsLine atStart (front ++ back) = startsLine (startsLine atStart front) back := by
  induction front generalizing atStart with
  | nil => rfl
  | cons c rest ih => exact ih _

theorem startsLine_concat (atStart : Bool) (cs : List Char) (c : Char) :
    startsLine atStart (cs ++ [c]) = decide (c = '\n') := by
  rw [startsLine_append]
  rfl

theorem recognise_nil (recognise : Recogniser α) : recognise [] = none := by
  cases read : recognise [] with
  | none => rfl
  | some pair => exact absurd pair.2.2 (Nat.not_lt_zero _)

theorem cut_nil (recognise : Recogniser α) (atStart : Bool) : cut recognise atStart [] = [] := by
  rw [cut.eq_def]
  cases atStart <;> simp [recognise_nil]

theorem cut_of_none {recognise : Recogniser α} {atStart : Bool} {c : Char} {rest : List Char}
    (nothing : atStart = true → recognise (c :: rest) = none) :
    cut recognise atStart (c :: rest) = .char c :: cut recognise (c = '\n') rest := by
  cases atStart with
  | false => exact cut_false_cons recognise c rest
  | true => exact cut_true_of_none (nothing rfl)

theorem found_append (first second : List (Piece α)) : found (first ++ second) = found first ++ found second :=
  List.filterMap_append

theorem remainder_append (first second : List (Piece α)) :
    remainder (first ++ second) = remainder first ++ remainder second := List.filterMap_append

theorem found_chars (cs : List Char) : found (cs.map Piece.char : List (Piece α)) = [] := by
  induction cs with
  | nil => rfl
  | cons c rest ih => exact ih

theorem remainder_chars (cs : List Char) : remainder (cs.map Piece.char : List (Piece α)) = cs := by
  induction cs with
  | nil => rfl
  | cons c rest ih => exact congrArg (c :: ·) ih

/-- A part of a text at whose line starts nothing is recognised. -/
theorem cut_stretch (recognise : Recogniser α) {atStart : Bool} {front rest : List Char}
    (nothing : ∀ before back, front = before ++ back → back ≠ [] → startsLine atStart before = true →
      recognise (back ++ rest) = none) :
    cut recognise atStart (front ++ rest) = front.map .char ++ cut recognise (startsLine atStart front) rest := by
  induction front generalizing atStart with
  | nil => rfl
  | cons c front ih =>
    have here : atStart = true → recognise (c :: (front ++ rest)) = none := by
      intro start
      exact nothing [] (c :: front) rfl (by simp) start
    rw [List.cons_append, cut_of_none here, List.map_cons, List.cons_append]
    have later : ∀ before back, front = before ++ back → back ≠ [] →
        startsLine (decide (c = '\n')) before = true → recognise (back ++ rest) = none := by
      intro before back same behind start
      exact nothing (c :: before) back (by rw [same, List.cons_append]) behind start
    rw [ih later]
    rfl

/-- Nothing is found in a text exactly if nothing is read behind any of its line starts. -/
theorem found_cut_eq_nil_iff (recognise : Recogniser α) (atStart : Bool) (cs : List Char) :
    found (cut recognise atStart cs) = [] ↔
      ∀ before back, cs = before ++ back → startsLine atStart before = true → recognise back = none := by
  constructor
  · induction cs generalizing atStart with
    | nil =>
      intro _ before back same _
      obtain ⟨_, rfl⟩ := List.append_eq_nil_iff.mp same.symm
      exact recognise_nil recognise
    | cons c rest ih =>
      intro nothing
      have here : atStart = true → recognise (c :: rest) = none := by
        rintro rfl
        cases read : recognise (c :: rest) with
        | none => rfl
        | some pair =>
          rw [cut_true_of_some read] at nothing
          cases nothing
      rw [cut_of_none here] at nothing
      intro before back same start
      cases before with
      | nil =>
        rw [List.nil_append] at same
        rw [← same]
        exact here start
      | cons d before =>
        obtain ⟨rfl, behind⟩ := List.cons_eq_cons.mp (same.trans List.cons_append)
        exact ih _ nothing before back behind start
  · intro nothing
    have stretch : cut recognise atStart (cs ++ []) = cs.map .char ++ cut recognise (startsLine atStart cs) [] := by
      refine cut_stretch recognise fun before back same _ start => ?_
      rw [List.append_nil]
      exact nothing before back same start
    rw [List.append_nil] at stretch
    rw [stretch, cut_nil, List.append_nil, found_chars]

end SolidityBuild.Text
