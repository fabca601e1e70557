import SolidityBuild.Text.Scan

/-!
# Texts read line by line

A recogniser that looks at the starts of lines reads the text of some lines by reading the lines: what it
finds in them does not depend on the text that follows (`Reads`), so the findings of consecutive lines add
up.
-/

namespace SolidityBuild.Text

variable {α : Type}

/-- The text of some lines, each with the line feed that ends it. -/
def unlines (lines : List (List Char)) : List Char := lines.flatMap (· ++ ['\n'])

theorem unlines_cons (line : List Char) (rest : List (List Char)) :
    unlines (line :: rest) = line ++ '\n' :: unlines rest := by simp [unlines]

theorem unlines_append (first second : List (List Char)) :
    unlines (first ++ second) = unlines first ++ unlines second := by simp [unlines]

theorem cut_false_cons (recognise : Recogniser α) (c : Char) (rest : List Char) :
    cut recognise false (c :: rest) = .char c :: cut recognise (c = '\n') rest := by
  rw [cut.eq_def]; simp

theorem cut_true_of_none {recognise : Recogniser α} {c : Char} {rest : List Char}
    (nothing : recognise (c :: rest) = none) :
    cut recognise true (c :: rest) = .char c :: cut recognise (c = '\n') rest := by
  rw [cut.eq_def]; simp [nothing]

theorem cut_true_of_some {recognise : Recogniser α} {cs : List Char} {what : α} {rest : Rest cs}
    (finds : recognise cs = some (what, rest)) :
    cut recognise true cs = .found what :: cut recognise false rest.1 := by
  rw [cut.eq_def]; simp [finds]

theorem found_char (c : Char) (pieces : List (Piece α)) : found (.char c :: pieces) = found pieces := rfl

theorem found_found (what : α) (pieces : List (Piece α)) :
    found (.found what :: pieces) = what :: found pieces := rfl

/-- Nothing is recognised before a line ends. -/
theorem found_cut_within {line : List Char} (recognise : Recogniser α) (plain : '\n' ∉ line)
    (rest : List Char) :
    found (cut recognise false (line ++ '\n' :: rest)) = found (cut recognise true rest) := by
  induction line with
  | nil => rw [List.nil_append, cut_false_cons, found_char]; simp
  | cons c tail ih =>
    have other : c ≠ '\n' := fun same => plain (by simp [same])
    rw [List.cons_append, cut_false_cons, found_char, decide_eq_false other]
    exact ih fun mem => plain (List.mem_cons_of_mem _ mem)

/-- A recogniser finds `whats` in the text of `lines`, whatever text follows. -/
def Reads (recognise : Recogniser α) (lines : List (List Char)) (whats : List α) : Prop :=
  ∀ rest, found (cut recognise true (unlines lines ++ rest)) = whats ++ found (cut recognise true rest)

theorem reads_nil (recognise : Recogniser α) : Reads recognise [] [] := fun _ => rfl

theorem Reads.append {recognise : Recogniser α} {first second : List (List Char)} {whats others : List α}
    (here : Reads recognise first whats) (there : Reads recognise second others) :
    Reads recognise (first ++ second) (whats ++ others) := by
  intro rest
  rw [unlines_append, List.append_assoc, here, there, List.append_assoc]

theorem Reads.cons {recognise : Recogniser α} {line : List Char} {lines : List (List Char)}
    {whats others : List α} (here : Reads recognise [line] whats) (there : Reads recognise lines others) :
    Reads recognise (line :: lines) (whats ++ others) := here.append there

theorem reads_flatMap {β : Type} {recognise : Recogniser α} {f : β → List (List Char)} {xs : List β}
    (each : ∀ x ∈ xs, Reads recognise (f x) []) : Reads recognise (xs.flatMap f) [] := by
  induction xs with
  | nil => exact reads_nil recognise
  | cons x rest ih =>
    exact (each x (by simp)).append (ih fun y mem => each y (List.mem_cons_of_mem _ mem))

/-- A line at whose front the recogniser finds nothing. -/
theorem reads_of_none {recognise : Recogniser α} {line : List Char} (plain : '\n' ∉ line)
    (nothing : ∀ rest, recognise (line ++ '\n' :: rest) = none) : Reads recognise [line] [] := by
  intro rest
  have text : unlines [line] ++ rest = line ++ '\n' :: rest := by simp [unlines]
  rw [text, List.nil_append]
  cases line with
  | nil =>
    rw [List.nil_append, cut_true_of_none (nothing rest), found_char]
    simp
  | cons c tail =>
    have other : c ≠ '\n' := fun same => plain (by simp [same])
    have start : recognise (c :: (tail ++ '\n' :: rest)) = none := nothing rest
    rw [List.cons_append, cut_true_of_none start, found_char, decide_eq_false other]
    exact found_cut_within recognise (fun mem => plain (List.mem_cons_of_mem _ mem)) rest

/-- A line at whose front the recogniser finds something that ends on the line. -/
theorem reads_of_some {recognise : Recogniser α} {line after : List Char} {what : α} (plain : '\n' ∉ after)
    (finds : ∀ rest, ∃ shorter, recognise (line ++ '\n' :: rest) = some (what, ⟨after ++ '\n' :: rest, shorter⟩)) :
    Reads recognise [line] [what] := by
  intro rest
  have text : unlines [line] ++ rest = line ++ '\n' :: rest := by simp [unlines]
  obtain ⟨shorter, read⟩ := finds rest
  rw [text, cut_true_of_some read, found_found, found_cut_within recognise plain]
  rfl

theorem found_atLineStarts {recognise : Recogniser α} {lines : List (List Char)} {whats : List α}
    (reads : Reads recognise lines whats) : found (atLineStarts recognise (unlines lines)) = whats := by
  have all := reads []
  have nothing : found (cut recognise true []) = [] := by
    rw [cut.eq_def]
    cases read : recognise [] with
    | none => simp [found]
    | some pair => exact absurd pair.2.2 (Nat.not_lt_zero _)
  rw [List.append_nil, nothing, List.append_nil] at all
  exact all

theorem shorter?_eq {cs : List Char} {what : α} {rest : List Char} (shorter : rest.length < cs.length) :
    shorter? (what, rest) = some (what, (⟨rest, shorter⟩ : Rest cs)) := dif_pos shorter

theorem isPrefixOf?_nil (cs : List Char) : ([] : List Char).isPrefixOf? cs = some cs := rfl

theorem isPrefixOf?_cons {β : Type} [BEq β] (c d : β) (tail rest : List β) :
    (c :: tail).isPrefixOf? (d :: rest) = if c == d then tail.isPrefixOf? rest else none := rfl

theorem isPrefixOf?_append {β : Type} [BEq β] [ReflBEq β] (front rest : List β) :
    front.isPrefixOf? (front ++ rest) = some rest := by
  induction front with
  | nil => rfl
  | cons c tail ih => simp [isPrefixOf?_cons, ih]

theorem eq_append_of_isPrefixOf? {front cs rest : List Char} (h : front.isPrefixOf? cs = some rest) :
    cs = front ++ rest := by
  induction front generalizing cs with
  | nil => simpa [isPrefixOf?_nil] using h
  | cons c tail ih =>
    cases cs with
    | nil => cases h
    | cons d others =>
      by_cases same : c = d
      · rw [same, List.cons_append]
        simp only [isPrefixOf?_cons, same, beq_self_eq_true, if_true] at h
        rw [ih h]
      · simp [isPrefixOf?_cons, same] at h

/-- Joined texts hold nothing but what is in them and between them. -/
theorem mem_intercalate {c : Char} {separator : String} {texts : List String}
    (mem : c ∈ (separator.intercalate texts).toList) : c ∈ separator.toList ∨ ∃ text ∈ texts, c ∈ text.toList := by
  induction texts with
  | nil => simp at mem
  | cons first rest ih =>
    by_cases last : rest = []
    · subst last
      exact .inr ⟨first, by simp, by simpa using mem⟩
    · rw [String.intercalate_cons_of_ne_nil last, String.toList_append, String.toList_append, List.append_assoc] at mem
      rcases List.mem_append.mp mem with here | behind
      · exact .inr ⟨first, by simp, here⟩
      rcases List.mem_append.mp behind with between | there
      · exact .inl between
      · exact (ih there).imp_right fun ⟨text, listed, inText⟩ => ⟨text, List.mem_cons_of_mem _ listed, inText⟩

/-- Texts are equal if they are equal up to a character that is in neither of them before, and behind it. -/
theorem eq_of_append_cons {c : Char} {front front' back back' : List Char} (new : c ∉ front) (new' : c ∉ front')
    (same : front ++ c :: back = front' ++ c :: back') : front = front' ∧ back = back' := by
  rcases List.append_eq_append_iff.mp same with ⟨extra, whole, behind⟩ | ⟨extra, whole, behind⟩
  · cases extra with
    | nil => exact ⟨by simpa using whole.symm, (List.cons.inj behind).2⟩
    | cons d extra => exact absurd (by simp [whole, ← (List.cons.inj behind).1]) new'
  · cases extra with
    | nil => exact ⟨by simpa using whole, (List.cons.inj behind).2.symm⟩
    | cons d extra => exact absurd (by simp [whole, ← (List.cons.inj behind).1]) new

theorem toList_lines {texts : List String} (nonempty : texts ≠ []) :
    ("\n".intercalate texts ++ "\n").toList = unlines (texts.map String.toList) := by
  induction texts with
  | nil => exact absurd rfl nonempty
  | cons first rest ih =>
    cases rest with
    | nil => simp [unlines]
    | cons second others =>
      have tail := ih (by simp)
      rw [String.toList_append] at tail
      rw [String.intercalate_cons_cons, List.map_cons, unlines_cons, ← tail]
      simp [String.toList_append]

end SolidityBuild.Text
