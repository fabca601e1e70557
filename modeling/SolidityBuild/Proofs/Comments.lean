import SolidityBuild.Proofs.Directives

/-!
# Comments

A text of Solidity is cut into comments and the characters around them (`lexemes`): a comment starts with two slashes
and ends with its line, or starts with a slash and an asterisk and ends with an asterisk and a slash, and within a
string there are none. The text can be shown with its comments as they are or with their bodies blanked out.
-/

namespace SolidityBuild.Source

open Text (isBlank)

/-! ## Lexemes -/

/-- The characters that end a line of Solidity: line feed, vertical tab, form feed, carriage return, next line, line
separator and paragraph separator. -/
def endsLine (c : Char) : Bool := [0x0a, 0x0b, 0x0c, 0x0d, 0x85, 0x2028, 0x2029].contains c.toNat

abbrev LineEnd := { c : Char // endsLine c = true }

/-- A text without the ends of lines. -/
abbrev LineText := { cs : List Char // ∀ c ∈ cs, endsLine c = false }

/-- A comment, or a character outside of comments. -/
inductive Lexeme where
  | char (c : Char)
  /-- A comment behind two slashes; the text may end before its line does. -/
  | line (body : LineText) (stop : Option LineEnd)
  /-- A comment behind a slash and an asterisk; the text may end before the comment does. -/
  | block (body : List Char) (closed : Bool)
deriving DecidableEq

/-- A text up to the end of its line, the character that ends the line, and the text behind it. -/
def splitLine : List Char → LineText × Option LineEnd × List Char
  | [] => (⟨[], by simp⟩, none, [])
  | c :: rest =>
    if ends : endsLine c = true then (⟨[], by simp⟩, some ⟨c, ends⟩, rest)
    else
      let (⟨body, single⟩, stop, after) := splitLine rest
      (⟨c :: body, List.forall_mem_cons.mpr ⟨Bool.eq_false_iff.mpr ends, single⟩⟩, stop, after)

/-- A text up to an asterisk and a slash, whether there are any, and the text behind them. -/
def splitBlock : List Char → List Char × Bool × List Char
  | [] => ([], false, [])
  | '*' :: '/' :: rest => ([], true, rest)
  | c :: rest =>
    let (body, closed, after) := splitBlock rest
    (c :: body, closed, after)

theorem length_splitLine (cs : List Char) : (splitLine cs).2.2.length ≤ cs.length := by
  induction cs with
  | nil => exact Nat.le_refl _
  | cons c rest ih =>
    unfold splitLine
    split
    · exact Nat.le_succ _
    · exact Nat.le_succ_of_le ih

theorem length_splitBlock (cs : List Char) : (splitBlock cs).2.2.length ≤ cs.length := by
  fun_induction splitBlock cs with
  | case1 => exact Nat.le_refl _
  | case2 rest => exact Nat.le_trans (Nat.le_succ _) (Nat.le_succ _)
  | case3 c rest _ body closed after split ih =>
    rw [split] at ih
    exact Nat.le_succ_of_le ih

/-- The comment at the front of a text. -/
def comment : Text.Recogniser Lexeme
  | '/' :: '/' :: rest =>
    some (.line (splitLine rest).1 (splitLine rest).2.1, ⟨(splitLine rest).2.2, by
      have shorter := length_splitLine rest
      simp only [List.length_cons]
      omega⟩)
  | '/' :: '*' :: rest =>
    some (.block (splitBlock rest).1 (splitBlock rest).2.1, ⟨(splitBlock rest).2.2, by
      have shorter := length_splitBlock rest
      simp only [List.length_cons]
      omega⟩)
  | _ => none

/-- The mark of the string that a character begins. -/
def stringBegun (c : Char) : Option Char := if Import.isQuote c then some c else none

/-- The mark of a string behind one of its characters, if it goes on. -/
def stringLeft (quote c : Char) : Option Char := if c = quote || endsLine c then none else some quote

/-- The lexemes of a text. It begins within a string if a mark is given, which ends with that mark or with its line;
a backslash in it keeps the next character from ending it. -/
def lexemes (mark : Option Char) (cs : List Char) : List Lexeme :=
  match mark with
  | none =>
    match comment cs with
    | some (found, ⟨rest, _⟩) => found :: lexemes none rest
    | none =>
      match cs with
      | [] => []
      | c :: rest => .char c :: lexemes (stringBegun c) rest
  | some quote =>
    match cs with
    | [] => []
    | '\\' :: c :: rest => .char '\\' :: .char c :: lexemes mark rest
    | c :: rest => .char c :: lexemes (stringLeft quote c) rest
termination_by cs.length

/-! ## Shown texts -/

namespace Lexeme

/-- A character outside of comments, or the characters that begin a comment. -/
def opening : Lexeme → List Char
  | char c => [c]
  | line _ _ => ['/', '/']
  | block _ _ => ['/', '*']

/-- The body of a comment. -/
def body : Lexeme → List Char
  | char _ => []
  | line body _ => body.1
  | block body _ => body

/-- The characters that end a comment. -/
def closing : Lexeme → List Char
  | char _ => []
  | line _ stop => (stop.map (·.1)).toList
  | block _ closed => if closed then ['*', '/'] else []

/-- The text of a lexeme with the characters of comment bodies as `keep` has them. -/
def shown (keep : Char → Char) (l : Lexeme) : List Char := l.opening ++ (l.body.map keep ++ l.closing)

theorem shown_char (keep : Char → Char) (c : Char) : (char c).shown keep = [c] := rfl

theorem shown_line (keep : Char → Char) (body : LineText) (stop : Option LineEnd) :
    (line body stop).shown keep = '/' :: '/' :: (body.1.map keep ++ (stop.map (·.1)).toList) := rfl

theorem shown_block (keep : Char → Char) (body : List Char) (closed : Bool) :
    (block body closed).shown keep = '/' :: '*' :: (body.map keep ++ if closed then ['*', '/'] else []) := rfl

/-- Whether the end of a lexeme was found. -/
def isClosed : Lexeme → Bool
  | char _ => true
  | line _ stop => stop.isSome
  | block _ closed => closed

end Lexeme

/-- The text of some lexemes. -/
def shown (keep : Char → Char) (ls : List Lexeme) : List Char := ls.flatMap (Lexeme.shown keep)

/-- A space in place of a character that does not end a line. -/
def blankOut (c : Char) : Char := if endsLine c then c else ' '

/-- A text with the bodies of its comments replaced by spaces. The ends of lines stay. -/
def blankComments (source : String) : String := String.ofList (shown blankOut (lexemes none source.toList))

/-! ## What lexemes show -/

theorem shown_append (keep : Char → Char) (first second : List Lexeme) :
    shown keep (first ++ second) = shown keep first ++ shown keep second := List.flatMap_append

theorem shown_cons (keep : Char → Char) (l : Lexeme) (rest : List Lexeme) :
    shown keep (l :: rest) = l.shown keep ++ shown keep rest := List.flatMap_cons

theorem shown_singleton (keep : Char → Char) (l : Lexeme) : shown keep [l] = l.shown keep := List.append_nil _

theorem shown_chars (keep : Char → Char) (cs : List Char) : shown keep (cs.map .char) = cs := by
  induction cs with
  | nil => rfl
  | cons c rest ih => exact congrArg (c :: ·) ih

theorem splitLine_eq (cs : List Char) :
    cs = (splitLine cs).1.1 ++ (((splitLine cs).2.1.map (·.1)).toList ++ (splitLine cs).2.2) := by
  induction cs with
  | nil => rfl
  | cons c rest ih =>
    unfold splitLine
    split
    · rfl
    · exact congrArg (c :: ·) ih

theorem splitBlock_eq (cs : List Char) :
    cs = (splitBlock cs).1 ++ ((if (splitBlock cs).2.1 then ['*', '/'] else []) ++ (splitBlock cs).2.2) := by
  fun_induction splitBlock cs with
  | case1 => rfl
  | case2 rest => rfl
  | case3 c rest _ body closed after split ih =>
    rw [split] at ih
    exact congrArg (c :: ·) ih

/-- A comment that is found shows the text that is found. -/
theorem comment_eq {cs : List Char} {l : Lexeme} {rest : Text.Rest cs} (found : comment cs = some (l, rest)) :
    cs = l.shown id ++ rest.1 := by
  unfold comment at found
  split at found
  · next behind =>
    cases found
    rw [Lexeme.shown, List.map_id, List.append_assoc, List.append_assoc]
    exact congrArg ('/' :: '/' :: ·) (splitLine_eq behind)
  · next behind =>
    cases found
    rw [Lexeme.shown, List.map_id, List.append_assoc, List.append_assoc]
    exact congrArg ('/' :: '*' :: ·) (splitBlock_eq behind)
  · cases found

/-- The lexemes of a text show it. -/
theorem shown_lexemes (mark : Option Char) (cs : List Char) : shown id (lexemes mark cs) = cs := by
  fun_induction lexemes mark cs with
  | case1 cs l rest shorter found ih => rw [shown_cons, ih, ← comment_eq found]
  | case2 => rfl
  | case3 c rest _ ih => rw [shown_cons, ih]; rfl
  | case4 quote => rfl
  | case5 quote c rest ih => rw [shown_cons, shown_cons, ih]; rfl
  | case6 quote c rest _ ih => rw [shown_cons, ih]; rfl

theorem splitLine_open {cs : List Char} (never : (splitLine cs).2.1.isSome = false) : (splitLine cs).2.2 = [] := by
  induction cs with
  | nil => rfl
  | cons c rest ih =>
    unfold splitLine at never ⊢
    split at never
    · cases never
    · next other =>
      rw [dif_neg other]
      exact ih never

theorem splitBlock_open {cs : List Char} (never : (splitBlock cs).2.1 = false) : (splitBlock cs).2.2 = [] := by
  fun_induction splitBlock cs with
  | case1 => rfl
  | case2 rest => cases never
  | case3 c rest _ body closed after split ih =>
    rw [split] at ih
    exact ih never

/-- A comment whose end is not found goes up to the end of the text. -/
theorem comment_open {cs : List Char} {l : Lexeme} {rest : Text.Rest cs} (found : comment cs = some (l, rest))
    (never : l.isClosed = false) : rest.1 = [] := by
  unfold comment at found
  split at found
  · cases found
    exact splitLine_open never
  · cases found
    exact splitBlock_open never
  · cases found

/-- Whether every lexeme but the last one is closed. -/
def Ended : List Lexeme → Prop
  | [] => True
  | l :: rest => (l.isClosed = false → rest = []) ∧ Ended rest

theorem ended_lexemes (mark : Option Char) (cs : List Char) : Ended (lexemes mark cs) := by
  fun_induction lexemes mark cs with
  | case1 cs l rest shorter found ih =>
    refine ⟨fun never => ?_, ih⟩
    obtain rfl : rest = [] := comment_open found never
    rw [lexemes.eq_def]
    rfl
  | case2 => trivial
  | case3 c rest _ ih => exact ⟨nofun, ih⟩
  | case4 quote => trivial
  | case5 quote c rest ih => exact ⟨nofun, nofun, ih⟩
  | case6 quote c rest _ ih => exact ⟨nofun, ih⟩

theorem Ended.right {front back : List Lexeme} (ended : Ended (front ++ back)) : Ended back := by
  induction front with
  | nil => exact ended
  | cons l rest ih => exact ih ended.2

/-- What is not at the end is closed. -/
theorem Ended.isClosed {front back : List Lexeme} (ended : Ended (front ++ back)) (more : back ≠ []) :
    ∀ l ∈ front, l.isClosed = true := by
  induction front with
  | nil => intro l mem; cases mem
  | cons first rest ih =>
    refine List.forall_mem_cons.mpr ⟨?_, ih ended.2⟩
    cases closed : first.isClosed with
    | true => rfl
    | false => exact absurd (List.append_eq_nil_iff.mp (ended.1 closed)).2 more

/-! ## Finding characters outside of comments -/

/-- Whether a lexeme is a character outside of comments with a property. -/
def Lexeme.isSign (p : Char → Bool) : Lexeme → Bool
  | char c => p c
  | _ => false

/-- A property that neither white space nor the characters around comments have. -/
structure Foreign (p : Char → Bool) : Prop where
  slash : p '/' = false
  asterisk : p '*' = false
  blank : ∀ c, isBlank c = true → p c = false

/-- The ways to show comments: as they are, and blanked out. -/
def Shows (keep : Char → Char) : Prop := keep = id ∨ keep = blankOut

theorem isBlank_of_endsLine {c : Char} (ends : endsLine c = true) : isBlank c = true := by
  simp only [endsLine, List.contains_eq_mem, List.mem_cons, List.not_mem_nil, or_false, decide_eq_true_eq] at ends
  simp only [isBlank, Text.blankRanges, List.any_cons, List.any_nil]
  rcases ends with same | same | same | same | same | same | same <;> rw [same] <;> decide

theorem isBlank_blankOut (c : Char) : isBlank (blankOut c) = true := by
  unfold blankOut
  split
  · next ends => exact isBlank_of_endsLine ends
  · decide

/-- A comment shows no characters with such a property if its body has none. -/
theorem Lexeme.not_of_mem_shown {keep : Char → Char} (shows : Shows keep) {p : Char → Bool} (foreign : Foreign p)
    {l : Lexeme} (other : l.isSign p = false) (spares : ∀ c ∈ l.body, p c = false) : ∀ c ∈ l.shown keep, p c = false := by
  have kept : ∀ c ∈ l.body.map keep, p c = false := by
    intro c mem
    obtain ⟨d, inside, rfl⟩ := List.mem_map.mp mem
    rcases shows with rfl | rfl
    · exact spares d inside
    · exact foreign.blank _ (isBlank_blankOut d)
  have opens : ∀ c ∈ l.opening, p c = false := by
    cases l with
    | char c => exact List.forall_mem_singleton.mpr other
    | line _ _ => exact List.forall_mem_cons.mpr ⟨foreign.slash, List.forall_mem_singleton.mpr foreign.slash⟩
    | block _ _ => exact List.forall_mem_cons.mpr ⟨foreign.slash, List.forall_mem_singleton.mpr foreign.asterisk⟩
  have closes : ∀ c ∈ l.closing, p c = false := by
    cases l with
    | char c => exact List.forall_mem_nil _
    | line _ stop =>
      cases stop with
      | none => exact List.forall_mem_nil _
      | some stop => exact List.forall_mem_singleton.mpr (foreign.blank _ (isBlank_of_endsLine stop.2))
    | block _ closed =>
      cases closed with
      | false => exact List.forall_mem_nil _
      | true => exact List.forall_mem_cons.mpr ⟨foreign.asterisk, List.forall_mem_singleton.mpr foreign.slash⟩
  intro c mem
  rcases List.mem_append.mp mem with first | later
  · exact opens c first
  rcases List.mem_append.mp later with inside | last
  · exact kept c inside
  · exact closes c last

/-- A character is not in a part of a text that has none of its kind. -/
theorem exists_behind {p : Char → Bool} {first second front back : List Char} {c : Char}
    (spares : ∀ d ∈ first, p d = false) (is : p c = true) (whole : first ++ second = front ++ c :: back) :
    ∃ front', front = first ++ front' ∧ second = front' ++ c :: back := by
  rcases List.append_eq_append_iff.mp whole with ⟨front', same, behind⟩ | ⟨inside, same, behind⟩
  · exact ⟨front', same, behind⟩
  · cases inside with
    | nil => exact ⟨[], by simpa using same.symm, by simpa using behind.symm⟩
    | cons d inside =>
      obtain ⟨rfl, _⟩ := List.cons_eq_cons.mp behind
      have other := spares c (by rw [same]; simp)
      exact absurd (other.symm.trans is) (by simp)

/-- The first character with such a property is found outside of comments, if no comment in front of it has one. -/
theorem exists_sign {keep : Char → Char} (shows : Shows keep) {p : Char → Bool} (foreign : Foreign p)
    {ls : List Lexeme} (spares : ∀ l ∈ ls.takeWhile (!·.isSign p), ∀ c ∈ l.body, p c = false) {front back : List Char}
    {c : Char} (whole : shown keep ls = front ++ c :: back) (goes : ∀ d ∈ front, p d = false) (stops : p c = true) :
    ∃ rest, ls = ls.takeWhile (!·.isSign p) ++ .char c :: rest ∧ shown keep (ls.takeWhile (!·.isSign p)) = front ∧
      shown keep rest = back := by
  induction ls generalizing front with
  | nil => cases front <;> cases whole
  | cons l rest ih =>
    cases sign : l.isSign p with
    | true =>
      cases l with
      | line _ _ => cases sign
      | block _ _ => cases sign
      | char d =>
        rw [shown_cons] at whole
        cases front with
        | nil =>
          obtain ⟨rfl, behind⟩ := List.cons_eq_cons.mp whole
          rw [List.takeWhile_cons_of_neg (by simp [sign])]
          exact ⟨rest, rfl, rfl, behind⟩
        | cons e front =>
          obtain ⟨rfl, _⟩ := List.cons_eq_cons.mp whole
          have other := goes d (by simp)
          exact absurd (other.symm.trans sign) (by simp)
    | false =>
      rw [List.takeWhile_cons_of_pos (by simp [sign])] at spares ⊢
      have spared := Lexeme.not_of_mem_shown shows foreign sign (spares l (by simp))
      rw [shown_cons] at whole
      -- The lexeme shows no such character, so all of it stands in front.
      obtain ⟨front, rfl, behind⟩ := exists_behind spared stops whole
      obtain ⟨after, split, shows_front, shows_back⟩ := ih (fun l mem => spares l (List.mem_cons_of_mem _ mem)) behind
        fun d mem => goes d (List.mem_append_right _ mem)
      refine ⟨after, ?_, ?_, shows_back⟩
      · rw [List.cons_append, ← split]
      · rw [shown_cons, shows_front]

/-- A text in front of which there are no slashes begins with characters outside of comments. -/
theorem exists_chars {keep : Char → Char} {ls : List Lexeme} {front back : List Char} (plain : '/' ∉ front)
    (whole : shown keep ls = front ++ back) : ∃ rest, ls = front.map .char ++ rest ∧ shown keep rest = back := by
  induction front generalizing ls with
  | nil => exact ⟨ls, rfl, whole⟩
  | cons c front ih =>
    cases ls with
    | nil => cases whole
    | cons l ls =>
      rw [shown_cons] at whole
      cases l with
      | char d =>
        obtain ⟨rfl, behind⟩ := List.cons_eq_cons.mp whole
        obtain ⟨rest, rfl, shows⟩ := ih (fun mem => plain (List.mem_cons_of_mem _ mem)) behind
        exact ⟨rest, rfl, shows⟩
      | line body stop =>
        obtain ⟨rfl, _⟩ := List.cons_eq_cons.mp whole
        exact absurd (by simp) plain
      | block body closed =>
        obtain ⟨rfl, _⟩ := List.cons_eq_cons.mp whole
        exact absurd (by simp) plain

end SolidityBuild.Source
