import SolidityBuild.Glob.Parser
import SolidityBuild.Proofs.LineReading
import SolidityBuild.Proofs.Results

/-!
# Patterns behind a directory

A pattern can be matched below a directory or, with the name of the directory in front of it, above: that makes no
difference. The two readings go side by side (`readTokens_behind`). They differ in the tokens at their very front,
where a `**` that stands first takes a slash along as soon as there is one before it.
-/

namespace SolidityBuild.Glob

/-! ## Bytes -/

theorem toList_loop_eq (bytes : ByteArray) (i : Nat) (read : List UInt8) :
    ByteArray.toList.loop bytes i read = read.reverse ++ bytes.data.toList.drop i := by
  fun_induction ByteArray.toList.loop bytes i read with
  | case1 i read inside ih =>
    have inside' : i < bytes.data.toList.length := by simpa using inside
    rw [ih, List.drop_eq_getElem_cons inside']
    simp [ByteArray.get!, getElem!_pos bytes.data i inside]
  | case2 i read outside =>
    rw [List.drop_eq_nil_of_le (by simpa using Nat.le_of_not_lt outside), List.append_nil]

/-- The bytes of a text. -/
def bytes (text : String) : List UInt8 := text.toUTF8.toList

theorem bytes_append (s t : String) : bytes (s ++ t) = bytes s ++ bytes t := by
  simp [bytes, ByteArray.toList, toList_loop_eq]

theorem bytes_ofList (cs : List Char) : bytes (String.ofList cs) = cs.flatMap charBytes := by
  induction cs with
  | nil => simp [bytes]
  | cons c rest ih =>
    have split : String.ofList (c :: rest) = c.toString ++ String.ofList rest := by
      apply String.toList_injective
      simp [Char.toString]
    rw [split, bytes_append, ih]
    rfl

/-! ## Matching -/

theorem patternRests_append (texts : List (List UInt8)) (front pattern : Pattern) :
    patternRests texts (front ++ pattern) = patternRests (patternRests texts front) pattern := by
  induction front generalizing texts with
  | nil => rfl
  | cons token rest ih => exact ih _

theorem matchesBytes_of_ne {pattern : Pattern} (other : pattern ≠ [.leading]) (text : List UInt8) :
    matchesBytes pattern text = (patternRests [text] pattern).contains [] := by
  unfold matchesBytes
  split
  · exact absurd rfl other
  · rfl

theorem nil_mem_ends (text : List UInt8) : [] ∈ ends text := by
  induction text with
  | nil => exact List.mem_cons_self
  | cons b rest ih => exact List.mem_cons_of_mem _ ih

/-- A token that leaves one text leaves a pattern to match this one. -/
theorem patternRests_cons_of_rests {token : Token} {text left : List UInt8} (rests : token.rests text = [left])
    (pattern : Pattern) : patternRests [text] (token :: pattern) = patternRests [left] pattern := by
  rw [patternRests, List.flatMap_singleton, rests]
  rfl

/-- Characters that stand for themselves match themselves. -/
theorem patternRests_literals (cs : List Char) (text : List UInt8) :
    patternRests [cs.flatMap charBytes ++ text] (cs.map fun c => .literal (charBytes c)) = [text] := by
  induction cs with
  | nil => rfl
  | cons c rest ih =>
    have one : (Token.literal (charBytes c)).rests ((c :: rest).flatMap charBytes ++ text) =
        [rest.flatMap charBytes ++ text] := by
      simp [Token.rests, Text.isPrefixOf?_append, List.append_assoc]
    rw [List.map_cons, patternRests_cons_of_rests one, ih]

/-! ## Tokens behind others -/

/-- Tokens as they are read behind others and a slash. All tokens have the last one first. -/
def behind (front : List Token) : List Token → List Token
  | [] => .literal [slash] :: front
  | [.leading] => .between :: front
  | token :: rest => token :: behind front rest

/-- The same for tokens at the end of a pattern. -/
def endBehind (front : List Token) : List Token → List Token
  | [.leading] => .trailing :: front
  | tokens => behind front tokens

section

variable {front tokens : List Token} {token : Token}

theorem behind_cons (other : tokens = [] → token ≠ .leading) :
    behind front (token :: tokens) = token :: behind front tokens := by
  cases token with
  | leading =>
    cases tokens with
    | nil => exact absurd rfl (other rfl)
    | cons next rest => rfl
  | _ => rfl

theorem endBehind_of_ne (other : tokens ≠ [.leading]) : endBehind front tokens = behind front tokens := by
  unfold endBehind
  split
  · exact absurd rfl other
  · rfl

theorem behind_ne_nil : behind front tokens ≠ [] := by
  unfold behind
  split <;> simp

theorem behind_ne_leading : behind front tokens ≠ [.leading] := by
  fun_cases behind front tokens with
  | case1 => simp
  | case2 => simp
  | case3 token rest => simp [behind_ne_nil]

theorem behind_concat (other : token ≠ .leading) (tokens : List Token) :
    behind front (tokens ++ [token]) = tokens ++ [token] ++ .literal [slash] :: front := by
  induction tokens with
  | nil => exact behind_cons fun _ => other
  | cons first rest ih => rw [List.cons_append, behind_cons (by simp), ih]; rfl

theorem behind_concat_leading (tokens : List Token) :
    behind front (tokens ++ [.leading]) = tokens ++ .between :: front := by
  induction tokens with
  | nil => rfl
  | cons first rest ih => rw [List.cons_append, behind_cons (by simp), ih]; rfl

end

section

variable {front : List Token} {above : List UInt8}
  (reaches : ∀ text, patternRests [above ++ text] front.reverse = [text])
include reaches

/-- A pattern behind others leaves, below what those match, what it leaves by itself. -/
theorem patternRests_behind (tokens : List Token) (text : List UInt8) :
    patternRests [above ++ slash :: text] (behind front tokens).reverse = patternRests [text] tokens.reverse := by
  have past (token : Token) (pattern : Pattern) :
      patternRests [above ++ slash :: text] ((token :: front).reverse ++ pattern) =
        patternRests [slash :: text] (token :: pattern) := by
    rw [List.reverse_cons, List.append_assoc, patternRests_append, reaches]
    rfl
  have pastSlash (pattern : Pattern) :
      patternRests [slash :: text] (.literal [slash] :: pattern) = patternRests [text] pattern := by
    refine patternRests_cons_of_rests ?_ pattern
    have begins : [slash].isPrefixOf? (slash :: text) = some text := Text.isPrefixOf?_append [slash] text
    rw [Token.rests, begins]
  rcases List.eq_nil_or_concat tokens with rfl | ⟨others, token, rfl⟩
  · rw [← List.append_nil (behind front []).reverse]
    exact (past (.literal [slash]) []).trans (pastSlash [])
  rw [List.concat_eq_append]
  by_cases leading : token = .leading
  · subst leading
    rw [behind_concat_leading, List.reverse_append, past, List.reverse_concat]
    rfl
  · rw [behind_concat leading, List.reverse_append, past, pastSlash]

/-- A pattern behind others matches, below what those match, what it matches by itself. -/
theorem matchesBytes_endBehind (tokens : List Token) (text : List UInt8) :
    matchesBytes (endBehind front tokens).reverse (above ++ slash :: text) = matchesBytes tokens.reverse text := by
  by_cases only : tokens = [.leading]
  · subst only
    have last : (Token.trailing :: front).reverse ≠ [.leading] := by
      rw [ne_eq, List.reverse_eq_iff]
      simp
    have rests : patternRests [above ++ slash :: text] (Token.trailing :: front).reverse = (ends text).eraseDups := by
      rw [List.reverse_cons, patternRests_append, reaches]
      simp [patternRests, Token.rests]
    have all : matchesBytes [Token.leading].reverse text = true := rfl
    rw [endBehind, matchesBytes_of_ne last, rests, all]
    simpa using nil_mem_ends text
  · rw [endBehind_of_ne only, matchesBytes_of_ne, matchesBytes_of_ne, patternRests_behind reaches]
    · simpa using only
    · simpa using behind_ne_leading

end

/-! ## Readings -/

namespace Reading

/-- A reading with tokens in front of those of its outermost branch. -/
def behindBranches (front : List Token) (branch : Branch) : List Branch → Reading
  | [] => ⟨⟨branch.finished, Glob.behind front branch.tokens⟩, []⟩
  | outer :: around =>
    let r := behindBranches front outer around
    ⟨branch, r.current :: r.around⟩

/-- A reading as it is where tokens and a slash have been read before it. -/
def behind (front : List Token) (r : Reading) : Reading := behindBranches front r.current r.around

/-- The same where a pattern ends. -/
def endBehind (front : List Token) (r : Reading) : Reading :=
  if r.isInside then r.behind front else ⟨⟨r.current.finished, Glob.endBehind front r.current.tokens⟩, []⟩

section

variable {front : List Token} {r : Reading}

theorem around_of_not_isInside (outside : r.isInside = false) : r.around = [] := by simpa [isInside] using outside

theorem isInside_behind : (r.behind front).isInside = r.isInside := by
  obtain ⟨branch, around⟩ := r
  cases around <;> rfl

theorem endBehind_of_ne (other : r.isInside = false → r.current.tokens ≠ [.leading]) :
    r.endBehind front = r.behind front := by
  unfold endBehind
  split
  · rfl
  · next outside =>
    have outside : r.isInside = false := by simpa using outside
    obtain ⟨branch, around⟩ := r
    cases around_of_not_isInside outside
    rw [Glob.endBehind_of_ne (other rfl)]
    rfl

theorem behind_push {token : Token} (other : r.isInside = false → r.current.tokens = [] → token ≠ .leading) :
    (r.push token).behind front = (r.behind front).push token := by
  obtain ⟨branch, around⟩ := r
  cases around with
  | nil =>
    have tokens : Glob.behind front (token :: branch.tokens) = token :: Glob.behind front branch.tokens :=
      behind_cons (other rfl)
    exact congrArg (fun tokens => (⟨⟨branch.finished, tokens⟩, []⟩ : Reading)) tokens
  | cons outer around => rfl

theorem behind_nextBranch (inside : r.isInside = true) :
    r.nextBranch.behind front = (r.behind front).nextBranch := by
  obtain ⟨branch, around⟩ := r
  cases around with
  | nil => cases inside
  | cons outer around => rfl

theorem behind_closeBrace : (r.behind front).closeBrace = r.closeBrace.map (·.behind front) := by
  obtain ⟨branch, around⟩ := r
  cases around with
  | nil => rfl
  | cons outer around =>
    have pushed (branches : List Pattern) : (push ⟨outer, around⟩ (.anyOf branches)).behind front =
        (behind front ⟨outer, around⟩).push (.anyOf branches) := behind_push (by simp)
    exact congrArg Except.ok (pushed _).symm

end

/-! ### Two stars -/

/-- What a `**` makes of the token in front of it, which stays if it is such a mark itself. -/
def spanned (token : Token) : List Token → List Token
  | .leading :: rest => .leading :: rest
  | .trailing :: rest => .trailing :: rest
  | _ :: rest => token :: rest
  | [] => []

/-- The tokens of a branch behind a `**`, and the text after it. -/
def starred (inside : Bool) (tokens : List Token) (before : Option Char) (rest : List Char) : List Token × List Char :=
  let plain := (.anyBytes :: .anyBytes :: tokens, rest)
  if tokens.isEmpty then
    match rest with
    | [] => ([.leading], [])
    | c :: more => if c = '/' then ([.leading], more) else plain
  else if before = some '/' || (inside && (before = some ',' || before = some '\x7b')) then
    match rest with
    | [] => (spanned .trailing tokens, [])
    | c :: more =>
      if c = '/' then (spanned .between tokens, more)
      else if inside && (c = ',' || c = '\x7d') then (spanned .trailing tokens, rest)
      else plain
  else plain

theorem doubleStar_eq (r : Reading) (before : Option Char) (rest : List Char) :
    r.doubleStar before rest =
      let read := starred r.isInside r.current.tokens before rest
      (⟨⟨r.current.finished, read.1⟩, r.around⟩, read.2) := by
  have span (token : Token) :
      r.spanDirectories token = ⟨⟨r.current.finished, spanned token r.current.tokens⟩, r.around⟩ := by
    obtain ⟨⟨finished, tokens⟩, around⟩ := r
    cases tokens with
    | nil => rfl
    | cons head rest => cases head <;> rfl
  unfold doubleStar starred
  simp only [span]
  split
  · next void =>
    have void : r.current.tokens = [] := by simpa using void
    cases rest with
    | nil => simp [push, void]
    | cons c more => split <;> simp_all [push]
  split
  · split
    · rfl
    · rfl
    · next other =>
      simp only [if_neg other]
      split <;> rfl
  · rfl

theorem spanned_ne_nil {tokens : List Token} (nonempty : tokens ≠ []) (token : Token) : spanned token tokens ≠ [] := by
  unfold spanned
  split
  · simp
  · simp
  · simp
  · exact nonempty

theorem starred_ne_nil (inside : Bool) (tokens : List Token) (before : Option Char) (rest : List Char) :
    (starred inside tokens before rest).1 ≠ [] := by
  by_cases void : tokens = []
  · subst void
    cases rest with
    | nil => simp [starred]
    | cons c more => by_cases isSlash : c = '/' <;> simp [starred, isSlash]
  · have nonempty := spanned_ne_nil void
    unfold starred
    grind

/-- In a text that does not end in a slash, something is left behind a `**` that is not the end. -/
theorem starred_left {rest : List Char} (ends : ¬['/'] <:+ rest) (nonempty : rest ≠ []) (inside : Bool)
    (tokens : List Token) (before : Option Char) :
    (starred inside tokens before rest).2 <:+ rest ∧ (starred inside tokens before rest).2 ≠ [] := by
  cases rest with
  | nil => exact absurd rfl nonempty
  | cons c more =>
    by_cases isSlash : c = '/'
    · subst isSlash
      have left : more ≠ [] := by
        rintro rfl
        exact ends List.suffix_rfl
      have inMore : more <:+ '/' :: more := List.suffix_cons '/' more
      unfold starred
      grind
    · unfold starred
      grind

section

variable {front tokens : List Token}

theorem spanned_between_behind (nonempty : tokens ≠ []) :
    spanned .between (Glob.behind front tokens) = Glob.behind front (spanned .between tokens) := by
  cases tokens with
  | nil => exact absurd rfl nonempty
  | cons head rest => cases head <;> cases rest <;> rfl

theorem spanned_trailing_behind (nonempty : tokens ≠ []) :
    spanned .trailing (Glob.behind front tokens) = Glob.endBehind front (spanned .trailing tokens) := by
  cases tokens with
  | nil => exact absurd rfl nonempty
  | cons head rest => cases head <;> cases rest <;> rfl

/-- A `**` is read behind other tokens and a slash as it is read where nothing is in front. -/
theorem starred_behind (front : List Token) {before before' : Option Char} (start : tokens = [] → before' = some '/')
    (later : tokens ≠ [] → before' = before) (rest : List Char) :
    starred false (Glob.behind front tokens) before' rest =
      let read := starred false tokens before rest
      (if rest = [] then Glob.endBehind front read.1 else Glob.behind front read.1, read.2) := by
  have plain : Glob.behind front (.anyBytes :: .anyBytes :: tokens) =
      .anyBytes :: .anyBytes :: Glob.behind front tokens := by
    rw [behind_cons (by simp), behind_cons (by simp)]
  have plainEnd : Glob.endBehind front (.anyBytes :: .anyBytes :: tokens) =
      .anyBytes :: .anyBytes :: Glob.behind front tokens := by
    rw [Glob.endBehind_of_ne (by simp), plain]
  by_cases void : tokens = []
  · subst void
    rw [start rfl]
    cases rest with
    | nil => rfl
    | cons c more =>
      by_cases isSlash : c = '/'
      · simp [starred, isSlash, Glob.behind, spanned]
      · simp [starred, isSlash, behind_ne_nil, plain]
  rw [later void]
  by_cases afterSlash : before = some '/'
  · cases rest with
    | nil => simp [starred, behind_ne_nil, void, afterSlash, spanned_trailing_behind void]
    | cons c more =>
      by_cases isSlash : c = '/'
      · simp [starred, behind_ne_nil, void, afterSlash, isSlash, spanned_between_behind void]
      · simp [starred, behind_ne_nil, void, afterSlash, isSlash, plain]
  · cases rest with
    | nil => simp [starred, behind_ne_nil, void, afterSlash, plainEnd]
    | cons c more => simp [starred, behind_ne_nil, void, afterSlash, plain]

end

/-! ### Side by side -/

/-- The text `cs` is still to be read by a reading and by the same behind tokens and a slash, which stand after
the characters `before` and `before'`. -/
structure Beside (r : Reading) (before before' : Option Char) (cs : List Char) : Prop where
  ends : ¬['/'] <:+ cs
  start : r.isInside = false → r.current.tokens = [] → before' = some '/'
  later : (r.isInside = false → r.current.tokens ≠ []) → before' = before
  more : r.isInside = false → r.current.tokens = [.leading] → cs ≠ []

section

variable {front : List Token} {r : Reading} {before before' : Option Char} {cs : List Char}

theorem doubleStar_behind (beside : r.Beside before before' cs) (rest : List Char) :
    (r.behind front).doubleStar before' rest =
      let read := r.doubleStar before rest
      (if rest = [] then read.1.endBehind front else read.1.behind front, read.2) := by
  rw [doubleStar_eq, doubleStar_eq, isInside_behind]
  cases inside : r.isInside with
  | false =>
    have read := starred_behind front (beside.start inside) (fun nonempty => beside.later fun _ => nonempty) rest
    obtain ⟨⟨finished, tokens⟩, around⟩ := r
    cases around_of_not_isInside inside
    change (let read := starred false (Glob.behind front tokens) before' rest
      ((⟨⟨finished, read.1⟩, []⟩ : Reading), read.2)) = _
    rw [read]
    split <;> rfl
  | true =>
    have same := beside.later (by simp [inside])
    obtain ⟨branch, around⟩ := r
    cases around with
    | nil => cases inside
    | cons outer around =>
      rw [same]
      split <;> rfl

/-- Once a reading is past its start, nothing but the text can end it side by side with the other. -/
theorem beside_of_moved (ends : ¬['/'] <:+ cs)
    (moved : r.isInside = false → r.current.tokens ≠ [] ∧ (r.current.tokens = [.leading] → cs ≠ [])) :
    r.Beside before before cs where
  ends := ends
  start outside void := absurd void (moved outside).1
  later _ := rfl
  more outside := (moved outside).2

theorem beside_push {token : Token} (ends : ¬['/'] <:+ cs) (other : token ≠ .leading) :
    (r.push token).Beside before before cs :=
  beside_of_moved ends fun _ => ⟨by simp [push], fun only => absurd (List.cons.inj only).1 other⟩

theorem beside_closeBrace {closed : Reading} (ends : ¬['/'] <:+ cs) (close : r.closeBrace = .ok closed) :
    closed.Beside before before cs := by
  obtain ⟨branch, around⟩ := r
  cases around with
  | nil => cases close
  | cons outer around =>
    cases close
    exact beside_push ends (by simp)

theorem beside_doubleStar {rest : List Char} (ends : ¬['/'] <:+ '*' :: '*' :: rest) (nonempty : rest ≠ []) :
    let read := r.doubleStar before rest
    read.1.Beside before' before' read.2 := by
  have behindStars : rest <:+ '*' :: '*' :: rest := (List.suffix_cons _ rest).trans (List.suffix_cons _ _)
  have left := starred_left (fun last => ends (last.trans behindStars)) nonempty r.isInside r.current.tokens before
  rw [doubleStar_eq]
  exact beside_of_moved (fun last => ends (last.trans (left.1.trans behindStars)))
    fun _ => ⟨starred_ne_nil r.isInside r.current.tokens before rest, fun _ => left.2⟩

end

end Reading

/-! ### Steps of reading -/

theorem suffix_classRanges {first joining : Bool} {ranges found : List (Char × Char)} {cs left : List Char}
    (read : classRanges first joining ranges cs = .ok (found, left)) : left <:+ cs := by
  induction cs generalizing first joining ranges with
  | nil => simp [classRanges] at read
  | cons c rest ih =>
    have inRest : left <:+ rest := by
      unfold classRanges at read
      grind [List.suffix_refl]
    exact inRest.trans (List.suffix_cons c rest)

/-- A class takes text from the front and is a token of its own. -/
theorem classToken_eq_ok {cs left : List Char} {token : Token} (read : classToken cs = .ok (token, left)) :
    left <:+ cs ∧ token ≠ .leading := by
  have members_suffix : members cs <:+ cs := by
    unfold members
    split
    · split
      · exact List.suffix_cons ..
      · exact List.suffix_rfl
    · exact List.suffix_rfl
  unfold classToken at read
  split at read
  · next found =>
    cases read
    exact ⟨(suffix_classRanges found).trans members_suffix, by simp⟩
  · cases read

theorem readTokens_class {rest left : List Char} {token : Token} (read : classToken rest = .ok (token, left))
    (r : Reading) (before : Option Char) :
    readTokens r before ('[' :: rest) = readTokens (r.push token) (some ']') left := by
  rw [readTokens]
  split
  · next read' =>
    rw [read] at read'
    cases read'
    rfl
  · next read' =>
    rw [read] at read'
    cases read'

theorem readTokens_class_error {rest : List Char} {fault : Fault} (read : classToken rest = .error fault)
    (r : Reading) (before : Option Char) : readTokens r before ('[' :: rest) = .error fault := by
  rw [readTokens]
  split
  · next read' =>
    rw [read] at read'
    cases read'
  · next read' =>
    rw [read] at read'
    cases read'
    rfl

/-- One star that no other follows is any part of a name. -/
theorem readTokens_star {rest : List Char} (one : ∀ more, rest = '*' :: more → False) (r : Reading)
    (before : Option Char) : readTokens r before ('*' :: rest) = readTokens (r.push .anyBytes) (some '*') rest := by
  rw [readTokens]
  exact one

/-! ### Whole texts -/

/-- Behind other tokens and a slash a pattern is read as it is where nothing is in front. -/
theorem readTokens_behind (front : List Token) {r : Reading} {before before' : Option Char} {cs : List Char}
    (beside : r.Beside before before' cs) :
    readTokens (r.behind front) before' cs = (readTokens r before cs).map (·.endBehind front) := by
  have ends {c : Char} {rest : List Char} (ends : ¬['/'] <:+ c :: rest) : ¬['/'] <:+ rest :=
    fun last => ends (last.trans (List.suffix_cons c rest))
  have pushed {token : Token} (r : Reading) (other : token ≠ .leading) :
      (r.behind front).push token = (r.push token).behind front := (Reading.behind_push fun _ _ => other).symm
  fun_induction readTokens r before cs generalizing before' with
  | case1 r before =>
    rw [readTokens, Except.map, Reading.endBehind_of_ne fun outside only => beside.more outside only rfl]
  | case2 r before rest ih =>
    rw [readTokens, pushed r (by simp)]
    exact ih (Reading.beside_push (ends beside.ends) (by simp))
  | case3 r before rest shorter read =>
    next ih =>
    rw [readTokens, Reading.doubleStar_behind beside]
    by_cases last : rest = []
    · have left : (r.doubleStar before rest).2 = [] := by simpa [last] using shorter
      simp only [read, if_pos last, left, readTokens, Except.map]
    · simp only [if_neg last]
      exact ih (Reading.beside_doubleStar beside.ends last)
  | case4 r before rest one ih =>
    rw [readTokens_star one, pushed r (by simp)]
    exact ih (Reading.beside_push (ends beside.ends) (by simp))
  | case5 r before rest token left read _ ih =>
    obtain ⟨inRest, other⟩ := classToken_eq_ok read
    rw [readTokens_class read, pushed r other]
    exact ih (Reading.beside_push (fun last => ends beside.ends (last.trans inRest)) other)
  | case6 r before rest fault read =>
    rw [readTokens_class_error read]
    rfl
  | case7 r before rest ih =>
    rw [readTokens]
    exact ih (Reading.beside_of_moved (ends beside.ends) (by simp [Reading.isInside, Reading.openBrace]))
  | case8 r before rest closed close ih =>
    rw [readTokens, Reading.behind_closeBrace, close]
    exact ih (Reading.beside_closeBrace (ends beside.ends) close)
  | case9 r before rest fault close =>
    rw [readTokens, Reading.behind_closeBrace, close]
    rfl
  | case10 r before rest ih =>
    rw [readTokens, Reading.isInside_behind]
    cases inside : r.isInside with
    | true =>
      simp only [inside, dite_true] at ih
      rw [if_pos rfl, if_pos rfl, ← Reading.behind_nextBranch inside]
      have inside' : r.nextBranch.isInside = true := inside
      exact ih (Reading.beside_of_moved (ends beside.ends) (by simp [inside']))
    | false =>
      simp only [inside, Bool.false_eq_true, dite_false] at ih
      rw [if_neg Bool.false_ne_true, if_neg Bool.false_ne_true, pushed r (by simp)]
      exact ih (Reading.beside_push (ends beside.ends) (by simp))
  | case11 r before c rest ih =>
    rw [readTokens, pushed r (by simp)]
    exact ih (Reading.beside_push (ends (ends beside.ends)) (by simp))
  | case12 r before =>
    rw [readTokens]
    rfl
  | case13 r before c rest =>
    next ih =>
    have step : readTokens (r.behind front) before' (c :: rest) =
        readTokens ((r.behind front).push (.literal (charBytes c))) (some c) rest := by
      rw [readTokens] <;> assumption
    rw [step, pushed r (by simp)]
    exact ih (Reading.beside_push (ends beside.ends) (by simp))

/-! ## Patterns below a directory -/

/-- A character that stands for itself wherever no braces are open. -/
def IsLiteral (c : Char) : Prop := c ∉ ['?', '*', '[', '\x7b', '\x7d', '\\']

/-- The tokens of characters that stand for themselves. -/
def literals (cs : List Char) : List Token := cs.map fun c => .literal (charBytes c)

theorem readTokens_literal {c : Char} (literal : IsLiteral c) (branch : Branch) (before : Option Char)
    (rest : List Char) :
    readTokens ⟨branch, []⟩ before (c :: rest) =
      readTokens (Reading.push ⟨branch, []⟩ (.literal (charBytes c))) (some c) rest := by
  simp only [IsLiteral, List.mem_cons, List.not_mem_nil, or_false, not_or] at literal
  by_cases comma : c = ','
  · subst comma
    rw [readTokens]
    rfl
  · rw [readTokens] <;> grind

/-- Literal characters are read one by one. -/
theorem readTokens_literals {cs : List Char} (literal : ∀ c ∈ cs, IsLiteral c) (tokens : List Token)
    (before : Option Char) (rest : List Char) :
    readTokens ⟨⟨[], tokens⟩, []⟩ before (cs ++ '/' :: rest) =
      readTokens ⟨⟨[], .literal [slash] :: (literals cs).reverse ++ tokens⟩, []⟩ (some '/') rest := by
  induction cs generalizing tokens before with
  | nil =>
    rw [List.nil_append, readTokens_literal (by simp [IsLiteral])]
    have bytes : charBytes '/' = [slash] := by decide +kernel
    rw [Reading.push, bytes]
    rfl
  | cons c cs ih =>
    rw [List.cons_append, readTokens_literal (literal c (by simp))]
    have others := ih (fun other mem => literal other (by simp [mem])) (.literal (charBytes c) :: tokens) (some c)
    simpa [Reading.push, literals] using others

/-- In braces that were never opened nothing can be read. -/
theorem isLiteral_of_readTokens {cs : List Char} (unmarked : ∀ c ∈ cs, c ∉ ['?', '*', '[', '\x7b', '\\'])
    {branch : Branch} {before : Option Char} {rest : List Char} {r : Reading}
    (read : readTokens ⟨branch, []⟩ before (cs ++ rest) = .ok r) : ∀ c ∈ cs, IsLiteral c := by
  induction cs generalizing branch before with
  | nil => simp
  | cons c cs ih =>
    have literal : IsLiteral c := by
      have here := unmarked c (by simp)
      by_cases closing : c = '\x7d'
      · subst closing
        rw [List.cons_append, readTokens] at read
        cases read
      · simp_all [IsLiteral]
    rw [List.cons_append, readTokens_literal literal] at read
    intro other mem
    rcases List.mem_cons.mp mem with rfl | behind
    · exact literal
    · exact ih (fun c mem => unmarked c (by simp [mem])) read other behind

/-- A pattern behind literal characters and a slash is what it is by itself, behind these. -/
theorem parse_literals {cs rest : List Char} (literal : ∀ c ∈ cs, IsLiteral c) (ends : ¬['/'] <:+ rest) :
    parse (String.ofList (cs ++ '/' :: rest)) =
      (parse (String.ofList rest)).map fun glob => (endBehind (literals cs).reverse glob.reverse).reverse := by
  have start : Reading.Beside ⟨⟨[], []⟩, []⟩ none (some '/') rest :=
    ⟨ends, fun _ _ => rfl, fun nonempty => absurd rfl (nonempty rfl), by simp⟩
  have read := readTokens_behind (literals cs).reverse start
  unfold parse
  rw [String.toList_ofList, String.toList_ofList, readTokens_literals literal, List.append_nil]
  change (readTokens (Reading.behind (literals cs).reverse ⟨⟨[], []⟩, []⟩) (some '/') rest >>= _) = _
  rw [read]
  cases readTokens ⟨⟨[], []⟩, []⟩ none rest with
  | error fault => rfl
  | ok r =>
    cases inside : r.isInside with
    | true =>
      have inside' : (r.endBehind (literals cs).reverse).isInside = true := by
        rw [Reading.endBehind, if_pos inside, Reading.isInside_behind, inside]
      simp [Except.map, bind, Except.bind, inside, inside']
    | false =>
      have outside : r.endBehind (literals cs).reverse =
          ⟨⟨r.current.finished, endBehind (literals cs).reverse r.current.tokens⟩, []⟩ := by
        rw [Reading.endBehind, inside, if_neg Bool.false_ne_true]
      have single := Reading.around_of_not_isInside inside
      simp [Except.map, bind, Except.bind, pure, Except.pure, outside, Reading.isInside, single]

/-- What a pattern matches behind the name of a directory is what the rest of it matches inside. -/
theorem matchesText_below {front rest : String}
    (unmarked : ∀ c ∈ front.toList, c ∉ ['?', '*', '[', '\x7b', '\\']) (ends : ¬['/'] <:+ rest.toList)
    {whole : Pattern} (read : parse (front ++ "/" ++ rest) = .ok whole) :
    ∃ glob, parse rest = .ok glob ∧ ∀ name, matchesText whole (front ++ "/" ++ name) = matchesText glob name := by
  have spelled : front ++ "/" ++ rest = String.ofList (front.toList ++ '/' :: rest.toList) := by
    apply String.toList_injective
    simp
  have literal : ∀ c ∈ front.toList, IsLiteral c := by
    obtain ⟨r, readWhole, _⟩ := bind_eq_ok_iff.mp read
    rw [spelled, String.toList_ofList] at readWhole
    exact isLiteral_of_readTokens unmarked readWhole
  rw [spelled, parse_literals literal ends, String.ofList_toList, map_eq_ok_iff] at read
  obtain ⟨glob, readRest, rfl⟩ := read
  refine ⟨glob, readRest, fun name => ?_⟩
  have reaches (text : List UInt8) :
      patternRests [front.toList.flatMap charBytes ++ text] (literals front.toList).reverse.reverse = [text] := by
    rw [List.reverse_reverse]
    exact patternRests_literals front.toList text
  have below := matchesBytes_endBehind reaches glob.reverse (bytes name)
  have slashBytes : bytes "/" = [slash] := by decide +kernel
  have split : bytes (front ++ "/" ++ name) = front.toList.flatMap charBytes ++ slash :: bytes name := by
    rw [bytes_append, bytes_append, slashBytes, ← bytes_ofList, String.ofList_toList, List.append_assoc]
    rfl
  rw [List.reverse_reverse, ← split] at below
  exact below

end SolidityBuild.Glob
