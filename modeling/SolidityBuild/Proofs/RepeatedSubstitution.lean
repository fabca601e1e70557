import SolidityBuild.Proofs.Dictionary
import SolidityBuild.Proofs.Identifiers
import SolidityBuild.Proofs.LineStarts
import SolidityBuild.Source.Constant

/-!
# Constants set twice

Values are set in each clause of a text by itself, where a clause is what stands in front of a semicolon or a
line end. Openings of declarations never overlap, so what a clause becomes is told by its text up to the first
of them, and by nothing behind it (`setClauses_eq`). Hence values that fit into a clause are set once and for
all. A value with a semicolon leaves the text behind its semicolon outside of the declaration, and the next time
it is set this text is joined by another copy of itself (`count_setAll_lt`).
-/

namespace SolidityBuild

namespace Text

variable {α : Type}

/-! ## Replacing -/

theorem replaceAll_nil (recognise : Recogniser α) (replacement : List Char) : replaceAll recognise replacement [] = [] := by
  rw [replaceAll.eq_def, recognise_nil recognise]

theorem replaceAll_of_some {recognise : Recogniser α} {cs : List Char} {what : α} {rest : Rest cs}
    (finds : recognise cs = some (what, rest)) (replacement : List Char) :
    replaceAll recognise replacement cs = replacement ++ replaceAll recognise replacement rest.1 := by
  rw [replaceAll.eq_def, finds]

theorem replaceAll_of_none {recognise : Recogniser α} {c : Char} {rest : List Char}
    (nothing : recognise (c :: rest) = none) (replacement : List Char) :
    replaceAll recognise replacement (c :: rest) = c :: replaceAll recognise replacement rest := by
  rw [replaceAll.eq_def, nothing]

/-- A part of a text in which nothing begins that is recognised. -/
theorem replaceAll_stretch {recognise : Recogniser α} {front rest : List Char}
    (nothing : ∀ before back, front = before ++ back → back ≠ [] → recognise (back ++ rest) = none)
    (replacement : List Char) :
    replaceAll recognise replacement (front ++ rest) = front ++ replaceAll recognise replacement rest := by
  induction front with
  | nil => rfl
  | cons c front ih =>
    have here : recognise (c :: (front ++ rest)) = none := nothing [] (c :: front) rfl (by simp)
    have later : ∀ before back, front = before ++ back → back ≠ [] → recognise (back ++ rest) = none := by
      intro before back same behind
      exact nothing (c :: before) back (by rw [same, List.cons_append]) behind
    rw [List.cons_append, replaceAll_of_none here, ih later, List.cons_append]

theorem mem_replaceAll {recognise : Recogniser α} {replacement cs : List Char} {c : Char}
    (suffix : ∀ cs what (rest : Rest cs), recognise cs = some (what, rest) → rest.1 <:+ cs)
    (mem : c ∈ replaceAll recognise replacement cs) : c ∈ replacement ∨ c ∈ cs := by
  fun_induction replaceAll recognise replacement cs with
  | case1 cs what rest shorter finds ih =>
    rcases List.mem_append.mp mem with here | behind
    · exact .inl here
    · rcases ih behind with here | left
      · exact .inl here
      · exact .inr ((suffix cs what ⟨rest, shorter⟩ finds).mem left)
  | case2 => cases mem
  | case3 d rest nothing ih =>
    rcases List.mem_cons.mp mem with rfl | behind
    · exact .inr List.mem_cons_self
    · rcases ih behind with here | left
      · exact .inl here
      · exact .inr (List.mem_cons_of_mem _ left)

/-- No character becomes rarer if each replacement holds it as often as what it replaces. -/
theorem count_le_count_replaceAll {recognise : Recogniser α} {replacement : List Char} {c : Char}
    (gains : ∀ cs what (rest : Rest cs), recognise cs = some (what, rest) →
      cs.count c ≤ replacement.count c + rest.1.count c) (cs : List Char) :
    cs.count c ≤ (replaceAll recognise replacement cs).count c := by
  fun_induction replaceAll recognise replacement cs with
  | case1 cs what rest shorter finds ih =>
    have gain : cs.count c ≤ replacement.count c + rest.count c := gains cs what ⟨rest, shorter⟩ finds
    rw [List.count_append]
    omega
  | case2 => exact Nat.le_refl _
  | case3 d rest nothing ih =>
    rw [List.count_cons, List.count_cons]
    omega

end Text

namespace Source.Constant

/-! ## Openings -/

theorem opening_eq (name : String) :
    opening name = 'c' :: (['o', 'n', 's', 't', 'a', 'n', 't', ' '] ++ (name.toList ++ [' ', '=', ' '])) := by
  have word : "constant ".toList = 'c' :: ['o', 'n', 's', 't', 'a', 'n', 't', ' '] := by decide
  have sign : " = ".toList = [' ', '=', ' '] := by decide
  unfold opening
  rw [sign, word, List.append_assoc, List.cons_append]

theorem opening_ne_nil (name : String) : opening name ≠ [] := by
  rw [opening_eq]
  exact List.cons_ne_nil _ _

/-- An opening holds nothing that ends a value. -/
theorem endsValue_of_mem_opening {name : String} (named : IsIdentifier name) {c : Char} (mem : c ∈ opening name) :
    endsValue c = false := by
  have letters : ∀ c ∈ ['c', 'o', 'n', 's', 't', 'a', 'n', 't', ' '], endsValue c = false := by simp [endsValue]
  have sign : ∀ c ∈ [' ', '=', ' '], endsValue c = false := by simp [endsValue]
  rw [opening_eq, List.mem_cons, List.mem_append, List.mem_append] at mem
  rcases mem with first | before | inside | behind
  · exact letters c (first ▸ List.mem_cons_self)
  · exact letters c (List.mem_cons_of_mem _ before)
  · have plain := isIdentifierChar_of_mem named inside
    simp only [endsValue, Bool.or_eq_false_iff, decide_eq_false_iff_not]
    exact ⟨ne_of_isIdentifierChar plain (by decide), ne_of_isIdentifierChar plain (by decide)⟩
  · exact sign c behind

theorem space_not_mem {name : String} (named : IsIdentifier name) : ' ' ∉ name.toList :=
  fun mem => absurd (isIdentifierChar_of_mem named mem) (by decide)

/-- Openings of different names begin differently. -/
theorem eq_of_begins {name other : String} (named : IsIdentifier name) (named' : IsIdentifier other)
    {tail : List Char} (begins : opening other <+: opening name ++ tail) : other = name := by
  obtain ⟨behind, same⟩ := begins
  rw [opening_eq, opening_eq] at same
  have names : other.toList ++ ' ' :: (['=', ' '] ++ behind) = name.toList ++ ' ' :: (['=', ' '] ++ tail) := by
    simpa using same
  obtain ⟨equal, _⟩ := Text.eq_of_append_cons (space_not_mem named') (space_not_mem named) names
  exact String.toList_inj.mp equal

/-- Openings do not overlap: behind the start of one, no other begins. -/
theorem not_begins_behind {name other : String} (named : IsIdentifier name) (named' : IsIdentifier other)
    {c : Char} {front back : List Char} (split : opening name = c :: front ++ back) (more : back ≠ [])
    (tail : List Char) : ¬opening other <+: back ++ tail := by
  rintro ⟨behind, same⟩
  rw [opening_eq] at split
  have rest := (List.cons.inj split).2
  obtain ⟨d, back, rfl⟩ := List.exists_cons_of_ne_nil more
  obtain rfl : 'c' = d := by
    rw [opening_eq] at same
    exact (List.cons.inj same).1
  -- a `c` is neither in the rest of the word nor in the sign, so the name would have to end in the word
  have inName {gap : List Char} (there : name.toList ++ [' ', '=', ' '] = gap ++ 'c' :: back) : False := by
    rcases List.append_eq_append_iff.mp there with ⟨gap', _, sign⟩ | ⟨ending, whole, rest⟩
    · have mem : 'c' ∈ [' ', '=', ' '] := by simp [sign]
      exact absurd mem (by decide)
    · have noSpace : ' ' ∉ ending := fun mem => space_not_mem named (by rw [whole]; simp [mem])
      rw [rest, opening_eq] at same
      have texts : ['c', 'o', 'n', 's', 't', 'a', 'n', 't'] ++ ' ' :: (other.toList ++ [' ', '=', ' '] ++ behind) =
          ending ++ ' ' :: (['=', ' '] ++ tail) := by simpa using same
      obtain ⟨_, equal⟩ := Text.eq_of_append_cons (by decide) noSpace texts
      have ⟨first, others, chars, _⟩ := named'
      rw [chars] at equal
      have sign : first = '=' := (List.cons.inj equal).1
      have mem : '=' ∈ other.toList := by rw [chars, sign]; exact List.mem_cons_self
      exact absurd (isIdentifierChar_of_mem named' mem) (by decide)
  rcases List.append_eq_append_iff.mp rest with ⟨gap, _, there⟩ | ⟨ending, word, there⟩
  · exact inName there
  · cases ending with
    | nil => exact @inName [] there.symm
    | cons e ending =>
      obtain rfl : 'c' = e := (List.cons.inj there).1
      have mem : 'c' ∈ ['o', 'n', 's', 't', 'a', 'n', 't', ' '] := by simp [word]
      exact absurd mem (by decide)

/-! ## Declarations -/

theorem declared_of_append (start rest : List Char) {inside : List Char} (plain : ∀ c ∈ inside, endsValue c = false) :
    ∃ shorter, declared start (start ++ (inside ++ ';' :: rest)) = some ((), ⟨rest, shorter⟩) := by
  have shorter : rest.length < (start ++ (inside ++ ';' :: rest)).length := by simp; omega
  refine ⟨shorter, ?_⟩
  have left : (inside ++ ';' :: rest).dropWhile (!endsValue ·) = ';' :: rest :=
    Text.dropWhile_stop (fun c mem => by simp [plain c mem]) (by decide)
  simp only [declared, Text.isPrefixOf?_append, Option.bind_eq_bind, Option.bind_some, left]
  exact Text.shorter?_eq shorter

theorem exists_of_declared {start cs : List Char} {what : Unit} {rest : Text.Rest cs}
    (finds : declared start cs = some (what, rest)) :
    ∃ inside left, cs = start ++ (inside ++ ';' :: left) ∧ (∀ c ∈ inside, endsValue c = false) ∧ rest.1 = left := by
  obtain ⟨behind, begins, ends⟩ := Option.bind_eq_some_iff.mp finds
  split at ends
  · next left stops =>
    obtain ⟨whole, _⟩ := Text.eq_of_dropWhile stops
    refine ⟨behind.takeWhile (!endsValue ·), left, ?_, ?_, ?_⟩
    · rw [← whole]
      exact Text.eq_append_of_isPrefixOf? begins
    · intro c mem
      simpa using List.all_eq_true.mp List.all_takeWhile c mem
    · unfold Text.shorter? at ends
      split at ends
      · cases ends; rfl
      · cases ends
  · cases ends

/-- Nothing is declared where no declaration opens. -/
theorem declared_eq_none {start cs : List Char} (other : ¬start <+: cs) : declared start cs = none := by
  cases finds : declared start cs with
  | none => rfl
  | some read =>
    obtain ⟨inside, left, same, _⟩ := exists_of_declared finds
    exact absurd ⟨inside ++ ';' :: left, same.symm⟩ other

/-- Nothing is declared in front of a line end or the end of the text. -/
theorem declared_eq_none_of_line {start clause rest : List Char} (plain : ∀ c ∈ start, endsValue c = false)
    (plain' : ∀ c ∈ clause, endsValue c = false) (line : rest = [] ∨ ∃ behind, rest = '\n' :: behind) :
    declared start (clause ++ rest) = none := by
  cases finds : declared start (clause ++ rest) with
  | none => rfl
  | some read =>
    obtain ⟨inside, left, same, inner, _⟩ := exists_of_declared finds
    have semicolon : endsValue ';' = true := by decide
    have front : ∀ c ∈ start ++ inside, endsValue c = false := by
      intro c mem
      rcases List.mem_append.mp mem with here | there
      · exact plain c here
      · exact inner c there
    rw [← List.append_assoc] at same
    rcases line with rfl | ⟨behind, rfl⟩
    · rw [List.append_nil] at same
      have closed := plain' ';' (by simp [same])
      rw [semicolon] at closed
      cases closed
    · -- both texts go up to the first character that ends a value
      have stop (mark : Char) (ends : endsValue mark = true) {front : List Char}
          (goes : ∀ c ∈ front, endsValue c = false) (back : List Char) :
          (front ++ mark :: back).dropWhile (!endsValue ·) = mark :: back :=
        Text.dropWhile_stop (fun c mem => by simp [goes c mem]) (by simp [ends])
      have lists := congrArg (List.dropWhile (!endsValue ·)) same
      rw [stop '\n' (by decide) plain', stop ';' semicolon front] at lists
      exact absurd (List.cons.inj lists).1 (by decide)

/-! ## Clauses -/

/-- A clause with the value of a name set: what stands behind the first opening is replaced. -/
def setClause (name value : String) : List Char → List Char
  | [] => []
  | c :: rest => if opening name <+: c :: rest then opening name ++ value.toList else c :: setClause name value rest

/-- A clause with the values of several names set, one after the other. -/
def setClauses (constants : List (String × String)) (clause : List Char) : List Char :=
  constants.foldl (fun clause (name, value) => setClause name value clause) clause

/-- A text with the values of several names set, one after the other. -/
def setAll (constants : List (String × String)) (text : List Char) : List Char :=
  constants.foldl (fun text (name, value) => setValue name value text) text

theorem setClause_of_opening {name : String} {clause : List Char} (begins : opening name <+: clause) (value : String) :
    setClause name value clause = opening name ++ value.toList := by
  cases clause with
  | nil => exact absurd (List.prefix_nil.mp begins) (opening_ne_nil name)
  | cons c clause => exact if_pos begins

/-- A part of a clause in which no declaration opens. -/
theorem setClause_append {name : String} {front tail : List Char}
    (nothing : ∀ before back, front = before ++ back → back ≠ [] → ¬opening name <+: back ++ tail) (value : String) :
    setClause name value (front ++ tail) = front ++ setClause name value tail := by
  induction front with
  | nil => rfl
  | cons c front ih =>
    have here : ¬opening name <+: c :: (front ++ tail) := nothing [] (c :: front) rfl (by simp)
    have later : ∀ before back, front = before ++ back → back ≠ [] → ¬opening name <+: back ++ tail := by
      intro before back same behind
      exact nothing (c :: before) back (by rw [same, List.cons_append]) behind
    rw [List.cons_append, setClause, if_neg here, ih later, List.cons_append]

theorem endsValue_of_mem_setClause {name value : String} (named : IsIdentifier name)
    (fits : ∀ c ∈ value.toList, endsValue c = false) {clause : List Char} (plain : ∀ c ∈ clause, endsValue c = false) :
    ∀ c ∈ setClause name value clause, endsValue c = false := by
  induction clause with
  | nil => exact plain
  | cons d clause ih =>
    intro c mem
    unfold setClause at mem
    split at mem
    · rcases List.mem_append.mp mem with before | inside
      · exact endsValue_of_mem_opening named before
      · exact fits c inside
    · rcases List.mem_cons.mp mem with rfl | behind
      · exact plain c List.mem_cons_self
      · exact ih (fun e mem => plain e (List.mem_cons_of_mem _ mem)) c behind

/-- An opening in front of a semicolon does not reach behind it. -/
theorem begins_clause {name : String} (named : IsIdentifier name) {clause rest : List Char}
    (begins : opening name <+: clause ++ ';' :: rest) : opening name <+: clause := by
  obtain ⟨behind, same⟩ := begins
  rcases List.append_eq_append_iff.mp same with ⟨inside, whole, _⟩ | ⟨beyond, whole, there⟩
  · exact ⟨inside, whole.symm⟩
  · cases beyond with
    | nil => exact ⟨[], by rw [List.append_nil, whole, List.append_nil]⟩
    | cons c beyond =>
      obtain rfl : ';' = c := (List.cons.inj there).1
      exact absurd (endsValue_of_mem_opening named (c := ';') (by simp [whole])) (by decide)

/-! ## Clause by clause -/

theorem setValue_clause {name : String} (named : IsIdentifier name) (value : String) {clause : List Char}
    (plain : ∀ c ∈ clause, endsValue c = false) (rest : List Char) :
    setValue name value (clause ++ ';' :: rest) = setClause name value clause ++ ';' :: setValue name value rest := by
  induction clause with
  | nil =>
    have nothing : declared (opening name) (';' :: rest) = none := by
      refine declared_eq_none fun begins => ?_
      have inside : opening name <+: [] := begins_clause named begins
      exact opening_ne_nil name (List.prefix_nil.mp inside)
    exact Text.replaceAll_of_none nothing _
  | cons c clause ih =>
    by_cases begins : opening name <+: c :: clause
    · obtain ⟨inside, same⟩ := begins
      have inner : ∀ d ∈ inside, endsValue d = false := fun d mem => plain d (by simp [← same, mem])
      obtain ⟨shorter, finds⟩ := declared_of_append (opening name) rest inner
      rw [← same, setClause_of_opening (List.prefix_append _ _), List.append_assoc, setValue,
        Text.replaceAll_of_some finds, declaration, List.append_assoc]
      rfl
    · have nothing : declared (opening name) (c :: (clause ++ ';' :: rest)) = none :=
        declared_eq_none fun there => begins (begins_clause named there)
      rw [List.cons_append, setValue, Text.replaceAll_of_none nothing, setClause, if_neg begins, List.cons_append]
      exact congrArg (c :: ·) (ih fun d mem => plain d (List.mem_cons_of_mem _ mem))

theorem setValue_line {name : String} (named : IsIdentifier name) (value : String) {clause rest : List Char}
    (plain : ∀ c ∈ clause, endsValue c = false) (line : rest = [] ∨ ∃ behind, rest = '\n' :: behind) :
    setValue name value (clause ++ rest) = clause ++ setValue name value rest := by
  refine Text.replaceAll_stretch ?_ _
  intro before back same _
  exact declared_eq_none_of_line (fun c => endsValue_of_mem_opening named)
    (fun c mem => plain c (by simp [same, mem])) line

theorem setValue_lineFeed {name : String} (named : IsIdentifier name) (value : String) (rest : List Char) :
    setValue name value ('\n' :: rest) = '\n' :: setValue name value rest := by
  have nothing : declared (opening name) ([] ++ '\n' :: rest) = none :=
    declared_eq_none_of_line (fun c => endsValue_of_mem_opening named) (by simp) (.inr ⟨rest, rfl⟩)
  exact Text.replaceAll_of_none nothing _

section

variable {constants : List (String × String)}

theorem setAll_clause (fits : ∀ entry ∈ constants, IsIdentifier entry.1 ∧ ∀ c ∈ entry.2.toList, endsValue c = false)
    {clause : List Char} (plain : ∀ c ∈ clause, endsValue c = false) (rest : List Char) :
    setAll constants (clause ++ ';' :: rest) = setClauses constants clause ++ ';' :: setAll constants rest := by
  induction constants generalizing clause rest with
  | nil => rfl
  | cons entry others ih =>
    obtain ⟨name, value⟩ := entry
    obtain ⟨named, fit⟩ := fits (name, value) List.mem_cons_self
    have later := ih (fun entry mem => fits entry (List.mem_cons_of_mem _ mem))
      (endsValue_of_mem_setClause named fit plain) (setValue name value rest)
    rw [← setValue_clause named value plain rest] at later
    exact later

theorem endsValue_of_mem_setClauses
    (fits : ∀ entry ∈ constants, IsIdentifier entry.1 ∧ ∀ c ∈ entry.2.toList, endsValue c = false)
    {clause : List Char} (plain : ∀ c ∈ clause, endsValue c = false) :
    ∀ c ∈ setClauses constants clause, endsValue c = false := by
  induction constants generalizing clause with
  | nil => exact plain
  | cons entry others ih =>
    obtain ⟨named, fit⟩ := fits entry List.mem_cons_self
    exact ih (fun entry mem => fits entry (List.mem_cons_of_mem _ mem)) (endsValue_of_mem_setClause named fit plain)

theorem setAll_line (named : ∀ entry ∈ constants, IsIdentifier entry.1) {clause : List Char}
    (plain : ∀ c ∈ clause, endsValue c = false) (rest : List Char) :
    setAll constants (clause ++ '\n' :: rest) = clause ++ '\n' :: setAll constants rest := by
  induction constants generalizing rest with
  | nil => rfl
  | cons entry others ih =>
    obtain ⟨name, value⟩ := entry
    have here : IsIdentifier name := named (name, value) List.mem_cons_self
    have later := ih (fun entry mem => named entry (List.mem_cons_of_mem _ mem)) (setValue name value rest)
    rw [← setValue_lineFeed here value rest, ← setValue_line here value plain (.inr ⟨rest, rfl⟩)] at later
    exact later

theorem setAll_rest (named : ∀ entry ∈ constants, IsIdentifier entry.1) {clause : List Char}
    (plain : ∀ c ∈ clause, endsValue c = false) : setAll constants clause = clause := by
  induction constants with
  | nil => rfl
  | cons entry others ih =>
    obtain ⟨name, value⟩ := entry
    have here : setValue name value clause = clause := by
      have stretch : setValue name value (clause ++ []) = clause ++ setValue name value [] :=
        setValue_line (named (name, value) List.mem_cons_self) value plain (.inl rfl)
      rwa [List.append_nil, setValue, setValue, Text.replaceAll_nil, List.append_nil] at stretch
    have later := ih fun entry mem => named entry (List.mem_cons_of_mem _ mem)
    rw [← here] at later
    exact later.trans here

/-! ## What a clause becomes -/

/-- Whatever follows `front` and an opening of `name`, none of the given names has an opening that begins in
`front`. -/
def LeadsTo (names : List String) (front : List Char) (name : String) : Prop :=
  ∀ other ∈ names, ∀ before back, front = before ++ back → back ≠ [] →
    ∀ tail, ¬opening other <+: back ++ (opening name ++ tail)

/-- A clause holds no opening of the given names, or has a first one. -/
theorem exists_leadsTo {names : List String} (named : ∀ name ∈ names, IsIdentifier name) (clause : List Char) :
    (∀ name ∈ names, ∀ before back, clause = before ++ back → back ≠ [] → ¬opening name <+: back) ∨
      ∃ front name tail, name ∈ names ∧ LeadsTo names front name ∧ clause = front ++ (opening name ++ tail) := by
  induction clause with
  | nil =>
    refine .inl fun name _ before back same more => ?_
    exact absurd (List.append_eq_nil_iff.mp same.symm).2 more
  | cons c clause ih =>
    by_cases opens : ∃ name ∈ names, opening name <+: c :: clause
    · obtain ⟨name, mem, tail, same⟩ := opens
      refine .inr ⟨[], name, tail, mem, ?_, same.symm⟩
      intro other _ before back empty more
      exact absurd (List.append_eq_nil_iff.mp empty.symm).2 more
    · have closed : ∀ name ∈ names, ¬opening name <+: c :: clause := by
        intro name mem begins
        exact opens ⟨name, mem, begins⟩
      rcases ih with nothing | ⟨front, name, tail, mem, leads, rfl⟩
      · refine .inl ?_
        rintro name mem (_ | ⟨d, before⟩) back same more
        · rw [List.nil_append] at same
          exact same ▸ closed name mem
        · exact nothing name mem before back (List.cons.inj (same.trans List.cons_append)).2 more
      · refine .inr ⟨c :: front, name, tail, mem, ?_, List.cons_append.symm⟩
        rintro other there (_ | ⟨d, before⟩) back same more tail' begins
        · rw [List.nil_append] at same
          subst same
          -- an opening that begins here ends in the text that is known, or would overlap the one of `name`
          have known : opening other <+: c :: front ++ opening name := by
            have whole : c :: front ++ opening name <+: c :: front ++ (opening name ++ tail') :=
              ⟨tail', by rw [List.append_assoc]⟩
            rcases List.prefix_or_prefix_of_prefix begins whole with inside | ⟨beyond, longer⟩
            · exact inside
            · rw [List.append_assoc] at longer
              refine absurd (⟨beyond, ?_⟩ : opening name <+: opening name ++ beyond ++ []) ?_
              · rw [List.append_nil]
              · refine not_begins_behind (named other there) (named name mem) longer.symm ?_ []
                exact List.append_ne_nil_of_left_ne_nil (opening_ne_nil name) _
          refine closed other there (known.trans ⟨tail, ?_⟩)
          rw [List.append_assoc, List.cons_append]
        · exact leads other there before back (List.cons.inj (same.trans List.cons_append)).2 more tail' begins

/-- Setting other values changes nothing up to the end of the first opening. -/
theorem setClause_other {names : List String} (named : ∀ name ∈ names, IsIdentifier name) {front : List Char}
    {name other : String} (mem : name ∈ names) (leads : LeadsTo names front name) (there : other ∈ names)
    (differs : other ≠ name) (value : String) (tail : List Char) :
    setClause other value (front ++ opening name ++ tail) = front ++ opening name ++ setClause other value tail := by
  refine setClause_append ?_ value
  intro before back same more begins
  have atOpening (begins : opening other <+: opening name ++ tail) : False :=
    differs (eq_of_begins (named name mem) (named other there) begins)
  rcases List.append_eq_append_iff.mp same with ⟨gap, _, whole⟩ | ⟨ending, whole, behind⟩
  · cases gap with
    | nil =>
      rw [List.nil_append] at whole
      exact atOpening (whole ▸ begins)
    | cons c gap => exact not_begins_behind (named name mem) (named other there) whole more tail begins
  · rw [behind, List.append_assoc] at begins
    by_cases empty : ending = []
    · rw [empty, List.nil_append] at begins
      exact atOpening begins
    · exact leads other there before ending whole empty tail begins

theorem setClauses_others {names : List String} (named : ∀ name ∈ names, IsIdentifier name) {front : List Char}
    {name : String} (mem : name ∈ names) (leads : LeadsTo names front name)
    (others : ∀ entry ∈ constants, entry.1 ∈ names ∧ entry.1 ≠ name) (tail : List Char) :
    setClauses constants (front ++ opening name ++ tail) = front ++ opening name ++ setClauses constants tail := by
  induction constants generalizing tail with
  | nil => rfl
  | cons entry rest ih =>
    obtain ⟨other, value⟩ := entry
    obtain ⟨there, differs⟩ := others (other, value) List.mem_cons_self
    have here := setClause_other named mem leads there differs value tail
    have later := ih (fun entry mem => others entry (List.mem_cons_of_mem _ mem)) (setClause other value tail)
    rw [← here] at later
    exact later

/-- What a clause becomes is told by its text up to the first opening. -/
theorem setClauses_eq {names : List String} {before after : List (String × String)} {name value : String}
    (named : ∀ other ∈ names, IsIdentifier other) {front : List Char} (leads : LeadsTo names front name)
    (listed : names = (before ++ (name, value) :: after).map (·.1)) (distinct : names.Nodup) (tail : List Char) :
    setClauses (before ++ (name, value) :: after) (front ++ (opening name ++ tail)) =
      front ++ opening name ++ setClauses after value.toList := by
  have mem : name ∈ names := by simp [listed]
  rw [listed, List.map_append, List.map_cons, List.nodup_append, List.nodup_cons] at distinct
  obtain ⟨_, ⟨new, _⟩, apart⟩ := distinct
  have others : ∀ entry ∈ before, entry.1 ∈ names ∧ entry.1 ≠ name := by
    intro entry there
    have key : entry.1 ∈ before.map (·.1) := List.mem_map_of_mem there
    exact ⟨by rw [listed, List.map_append]; exact List.mem_append_left _ key, apart _ key _ List.mem_cons_self⟩
  have others' : ∀ entry ∈ after, entry.1 ∈ names ∧ entry.1 ≠ name := by
    intro entry there
    have key : entry.1 ∈ after.map (·.1) := List.mem_map_of_mem there
    refine ⟨?_, fun same => new (same ▸ key)⟩
    rw [listed, List.map_append, List.map_cons]
    exact List.mem_append_right _ (List.mem_cons_of_mem _ key)
  have set (tail : List Char) :
      setClause name value (front ++ opening name ++ tail) = front ++ opening name ++ value.toList := by
    rw [List.append_assoc, setClause_append (fun before back same more => leads name mem before back same more tail),
      setClause_of_opening (List.prefix_append _ _), List.append_assoc]
  rw [← List.append_assoc, ← setClauses_others named mem leads others', ← set (setClauses before tail),
    ← setClauses_others named mem leads others]
  simp [setClauses]

/-- Values that fit into a clause are set once and for all. -/
theorem setClauses_setClauses (named : ∀ entry ∈ constants, IsIdentifier entry.1)
    (distinct : (constants.map (·.1)).Nodup) (clause : List Char) :
    setClauses constants (setClauses constants clause) = setClauses constants clause := by
  have names : ∀ name ∈ constants.map (·.1), IsIdentifier name := by
    intro name mem
    obtain ⟨entry, there, rfl⟩ := List.mem_map.mp mem
    exact named entry there
  rcases exists_leadsTo names clause with nothing | ⟨front, name, tail, mem, leads, rfl⟩
  · have same : setClauses constants clause = clause := by
      clear named distinct names
      induction constants with
      | nil => rfl
      | cons entry rest ih =>
        have here : setClause entry.1 entry.2 (clause ++ []) = clause ++ setClause entry.1 entry.2 [] := by
          refine setClause_append ?_ entry.2
          intro before back same more
          rw [List.append_nil]
          exact nothing entry.1 List.mem_cons_self before back same more
        have later := ih fun name mem => nothing name (List.mem_cons_of_mem _ mem)
        rw [setClause, List.append_nil] at here
        rw [← here] at later
        exact later.trans here
    rw [same, same]
  · obtain ⟨⟨name, value⟩, there, rfl⟩ := List.mem_map.mp mem
    obtain ⟨before, after, rfl⟩ := List.append_of_mem there
    have becomes := setClauses_eq names leads rfl distinct
    rw [becomes, List.append_assoc, becomes, List.append_assoc]

/-! ## Setting once and for all -/

/-- A text is one clause, or goes up to the first character that ends a value. -/
theorem exists_clause (text : List Char) :
    (∀ c ∈ text, endsValue c = false) ∨
      ∃ clause c rest, text = clause ++ c :: rest ∧ (∀ d ∈ clause, endsValue d = false) ∧ (c = ';' ∨ c = '\n') := by
  have plain : ∀ c ∈ text.takeWhile (!endsValue ·), endsValue c = false := by
    intro c mem
    simpa using List.all_eq_true.mp List.all_takeWhile c mem
  cases stops : text.dropWhile (!endsValue ·) with
  | nil =>
    have whole := List.takeWhile_append_dropWhile (p := (!endsValue ·)) (l := text)
    rw [stops, List.append_nil] at whole
    exact .inl (whole ▸ plain)
  | cons c rest =>
    obtain ⟨whole, ends⟩ := Text.eq_of_dropWhile stops
    have mark : endsValue c = true := by simpa using ends
    refine .inr ⟨_, c, rest, whole, plain, ?_⟩
    simpa [endsValue] using mark

theorem setAll_setAll (fits : ∀ entry ∈ constants, IsIdentifier entry.1 ∧ ∀ c ∈ entry.2.toList, endsValue c = false)
    (distinct : (constants.map (·.1)).Nodup) (text : List Char) :
    setAll constants (setAll constants text) = setAll constants text := by
  have named : ∀ entry ∈ constants, IsIdentifier entry.1 := fun entry mem => (fits entry mem).1
  induction length : text.length using Nat.strongRecOn generalizing text with
  | ind size ih =>
    subst length
    rcases exists_clause text with plain | ⟨clause, c, rest, rfl, plain, ends⟩
    · rw [setAll_rest named plain, setAll_rest named plain]
    · have behind := ih rest.length (by simp; omega) rest rfl
      rcases ends with rfl | rfl
      · have plain' : ∀ d ∈ setClauses constants clause, endsValue d = false :=
          endsValue_of_mem_setClauses fits plain
        rw [setAll_clause fits plain, setAll_clause fits plain', setClauses_setClauses named distinct, behind]
      · rw [setAll_line named plain, setAll_line named plain, behind]

/-! ## Values with a semicolon -/

/-- A text of one line that declares a value of `name` at its front. -/
def Declares (name : String) (text : List Char) : Prop :=
  ∃ tail, text = opening name ++ tail ∧ ';' ∈ tail ∧ '\n' ∉ tail

theorem count_le_count_setValue (name value : String) (text : List Char) :
    text.count ';' ≤ (setValue name value text).count ';' := by
  refine Text.count_le_count_replaceAll ?_ text
  intro cs what rest finds
  obtain ⟨inside, left, rfl, plain, same⟩ := exists_of_declared finds
  have uncounted : inside.count ';' = 0 := by
    rw [List.count_eq_zero]
    exact fun mem => absurd (plain ';' mem) (by decide)
  rw [same]
  simp only [declaration, List.count_append, List.count_cons_self, uncounted, List.count_nil]
  omega

/-- Setting a value replaces the declaration that a text begins with. -/
theorem Declares.setValue_eq {name : String} {text : List Char} (declares : Declares name text) (value : String) :
    ∃ rest, text.count ';' = (opening name).count ';' + 1 + rest.count ';' ∧ '\n' ∉ rest ∧
      setValue name value text = declaration name value ++ setValue name value rest := by
  obtain ⟨tail, rfl, semicolon, line⟩ := declares
  rcases exists_clause tail with plain | ⟨inside, c, rest, rfl, plain, ends⟩
  · exact absurd (plain ';' semicolon) (by decide)
  · obtain rfl : c = ';' := ends.resolve_right fun feed => line (by simp [feed])
    have uncounted : inside.count ';' = 0 := by
      rw [List.count_eq_zero]
      exact fun mem => absurd (plain ';' mem) (by decide)
    obtain ⟨shorter, finds⟩ := declared_of_append (opening name) rest plain
    refine ⟨rest, ?_, fun mem => line (by simp [mem]), Text.replaceAll_of_some finds _⟩
    simp only [List.count_append, List.count_cons_self, uncounted]
    omega

theorem lineFeed_not_mem_setValue {name value : String} {text : List Char} (named : IsIdentifier name)
    (single : '\n' ∉ value.toList) (line : '\n' ∉ text) : '\n' ∉ setValue name value text := by
  intro mem
  have suffix : ∀ cs what (rest : Text.Rest cs), declared (opening name) cs = some (what, rest) → rest.1 <:+ cs := by
    intro cs what rest finds
    obtain ⟨inside, left, whole, _, same⟩ := exists_of_declared finds
    exact ⟨opening name ++ (inside ++ [';']), by rw [same, whole]; simp⟩
  rcases Text.mem_replaceAll suffix mem with here | there
  · simp only [declaration, List.mem_append, List.mem_singleton] at here
    rcases here with (before | inside) | mark
    · exact absurd (endsValue_of_mem_opening named before) (by decide)
    · exact single inside
    · exact absurd mark (by decide)
  · exact line there

/-- Setting any value leaves a declaration at the front of a text. -/
theorem Declares.setValue {name other value : String} {text : List Char} (declares : Declares name text)
    (named : IsIdentifier name) (named' : IsIdentifier other) (single : '\n' ∉ value.toList) :
    Declares name (setValue other value text) := by
  by_cases same : other = name
  · subst same
    obtain ⟨rest, _, line, equal⟩ := declares.setValue_eq value
    refine ⟨value.toList ++ ';' :: Constant.setValue other value rest, ?_, by simp, ?_⟩
    · rw [equal, declaration]
      simp
    · intro mem
      rcases List.mem_append.mp mem with inside | behind
      · exact single inside
      · rcases List.mem_cons.mp behind with mark | there
        · exact absurd mark (by decide)
        · exact lineFeed_not_mem_setValue named' single line there
  · obtain ⟨tail, rfl, semicolon, line⟩ := declares
    refine ⟨Constant.setValue other value tail, ?_, ?_, lineFeed_not_mem_setValue named' single line⟩
    · refine Text.replaceAll_stretch ?_ _
      rintro (_ | ⟨c, before⟩) back split more
      · rw [List.nil_append] at split
        exact declared_eq_none fun begins => same (eq_of_begins named named' (split ▸ begins))
      · exact declared_eq_none (not_begins_behind named named' split more tail)
    · have more := count_le_count_setValue other value tail
      exact List.count_pos_iff.mp (Nat.lt_of_lt_of_le (List.count_pos_iff.mpr semicolon) more)

theorem Declares.setAll {name : String} (named : IsIdentifier name)
    (fits : ∀ entry ∈ constants, IsIdentifier entry.1 ∧ '\n' ∉ entry.2.toList) {text : List Char}
    (declares : Declares name text) : Declares name (setAll constants text) := by
  induction constants generalizing text with
  | nil => exact declares
  | cons entry rest ih =>
    obtain ⟨named', single⟩ := fits entry List.mem_cons_self
    exact ih (fun entry mem => fits entry (List.mem_cons_of_mem _ mem)) (declares.setValue named named' single)

theorem count_le_count_setAll (constants : List (String × String)) (text : List Char) :
    text.count ';' ≤ (setAll constants text).count ';' := by
  induction constants generalizing text with
  | nil => exact Nat.le_refl _
  | cons entry rest ih => exact Nat.le_trans (count_le_count_setValue entry.1 entry.2 text) (ih _)

/-- A value with a semicolon makes the text longer whenever it is set. -/
theorem count_setAll_lt {name value : String} (mem : (name, value) ∈ constants) (semicolon : ';' ∈ value.toList)
    (fits : ∀ entry ∈ constants, IsIdentifier entry.1 ∧ '\n' ∉ entry.2.toList) {text : List Char}
    (declares : Declares name text) : text.count ';' < (setAll constants text).count ';' := by
  induction constants generalizing text with
  | nil => cases mem
  | cons entry rest ih =>
    have later := count_le_count_setAll rest (Constant.setValue entry.1 entry.2 text)
    rcases List.mem_cons.mp mem with rfl | there
    · obtain ⟨behind, count, _, equal⟩ := declares.setValue_eq value
      have grows : text.count ';' < (Constant.setValue name value text).count ';' := by
        have inside := List.count_pos_iff.mpr semicolon
        have left := count_le_count_setValue name value behind
        rw [equal, count]
        simp only [declaration, List.count_append, List.count_singleton_self]
        omega
      exact Nat.lt_of_lt_of_le grows later
    · have named := (fits (name, value) mem).1
      obtain ⟨named', single⟩ := fits entry List.mem_cons_self
      have here := count_le_count_setValue entry.1 entry.2 text
      exact Nat.lt_of_le_of_lt here
        (ih there (fun entry mem => fits entry (List.mem_cons_of_mem _ mem)) (declares.setValue named named' single))

end

/-- Setting the values of constants twice is setting them once, in every source, exactly if no value has a
semicolon. -/
theorem substitute_idempotent_iff {constants : Dict String} (named : ∀ entry ∈ constants.toList, IsIdentifier entry.1)
    (single : ∀ entry ∈ constants.toList, '\n' ∉ entry.2.toList) :
    (∀ source, substitute constants (substitute constants source) = substitute constants source) ↔
      ∀ entry ∈ constants.toList, ';' ∉ entry.2.toList := by
  have substitute_eq (source : String) :
      (substitute constants source).toList = setAll constants.toList source.toList := String.toList_ofList
  constructor
  · rintro idempotent ⟨name, value⟩ mem semicolon
    have fits : ∀ entry ∈ constants.toList, IsIdentifier entry.1 ∧ '\n' ∉ entry.2.toList :=
      fun entry there => ⟨named entry there, single entry there⟩
    have declares : Declares name (opening name ++ [';']) := ⟨[';'], rfl, by simp, by simp⟩
    have again := congrArg String.toList (idempotent (String.ofList (opening name ++ [';'])))
    rw [substitute_eq, substitute_eq, String.toList_ofList] at again
    have grows := count_setAll_lt mem semicolon fits (declares.setAll (named _ mem) fits)
    rw [again] at grows
    exact Nat.lt_irrefl _ grows
  · intro closed source
    have fits : ∀ entry ∈ constants.toList, IsIdentifier entry.1 ∧ ∀ c ∈ entry.2.toList, endsValue c = false := by
      refine fun entry mem => ⟨named entry mem, fun c inside => ?_⟩
      simp only [endsValue, Bool.or_eq_false_iff, decide_eq_false_iff_not]
      exact ⟨fun mark => closed entry mem (mark ▸ inside), fun feed => single entry mem (feed ▸ inside)⟩
    apply String.toList_injective
    rw [substitute_eq, substitute_eq, setAll_setAll fits (Entries.keys_nodup constants.ordered)]

/-- The values of two constants declare each other. -/
theorem substitute_idempotent_mutual :
    let constants := Dict.ofList [("A", "constant B = 0"), ("B", "constant A = 1")]
    (∀ entry ∈ constants.toList, IsIdentifier entry.1) ∧ (∀ entry ∈ constants.toList, '\n' ∉ entry.2.toList) ∧
      (∀ entry ∈ constants.toList, ';' ∉ entry.2.toList) ∧
      (∀ source, substitute constants (substitute constants source) = substitute constants source) ∧
      substitute constants "constant A = 7;" = "constant A = constant B = constant A = 1;" := by
  intro constants
  have listed : constants.toList = [("A", "constant B = 0"), ("B", "constant A = 1")] := by decide +kernel
  have named : ∀ entry ∈ constants.toList, IsIdentifier entry.1 := by
    rw [listed]
    intro entry mem
    rcases List.mem_pair.mp mem with rfl | rfl
    · exact ⟨'A', [], by decide, by decide, by decide⟩
    · exact ⟨'B', [], by decide, by decide, by decide⟩
  have single : ∀ entry ∈ constants.toList, '\n' ∉ entry.2.toList := by decide +kernel
  have closed : ∀ entry ∈ constants.toList, ';' ∉ entry.2.toList := by decide +kernel
  exact ⟨named, single, closed, (substitute_idempotent_iff named single).mpr closed, by decide +kernel⟩

end Source.Constant

end SolidityBuild
