import SolidityBuild.Glob.Basic

/-!
# Glob patterns: reading

`?` is one byte, `*` any bytes within a name, `[…]` a class of bytes, `{a,b}` alternatives, which nest,
and a backslash takes the next character literally. `**` spans directories where it is all of a name;
next to other characters it is two `*`.
-/

namespace SolidityBuild.Glob

/-- Why a text is not a pattern. -/
inductive Fault where
  | unclosedClass
  | descendingRange (first last : Char)
  | unopenedAlternatives
  | unclosedAlternatives
  | danglingEscape
deriving DecidableEq

def Fault.message : Fault → String
  | .unclosedClass => "unclosed character class; missing ']'"
  | .descendingRange first last =>
    "invalid range; '" ++ first.toString ++ "' > '" ++ last.toString ++ "'"
  | .unopenedAlternatives => "unopened alternate group; missing '\x7b'"
  | .unclosedAlternatives => "unclosed alternate group; missing '\x7d'"
  | .danglingEscape => "dangling '\\'"

/-- The bytes of a character. -/
def charBytes (c : Char) : List UInt8 := c.toString.toUTF8.toList

/-! ## Classes -/

/-- The members of a class up to its closing bracket, as ranges with the last one first, and the text
after it. `joining` says that a `-` waits for the end of a range, `first` that nothing was read yet. -/
def classRanges (first joining : Bool) (ranges : List (Char × Char)) :
    List Char → Except Fault (List (Char × Char) × List Char)
  | [] => .error .unclosedClass
  | c :: rest =>
    if c = ']' && !first then .ok (if joining then ('-', '-') :: ranges else ranges, rest)
    else if c = '-' && !first && !joining then classRanges false true ranges rest
    else
      match joining, ranges with
      | true, (low, _) :: others =>
        if c < low then .error (.descendingRange low c)
        else classRanges false false ((low, c) :: others) rest
      | _, ranges => classRanges false false ((c, c) :: ranges) rest

theorem length_classRanges {first joining : Bool} {ranges found : List (Char × Char)} {cs rest : List Char}
    (h : classRanges first joining ranges cs = .ok (found, rest)) : rest.length < cs.length := by
  induction cs generalizing first joining ranges with
  | nil => simp [classRanges] at h
  | cons c tail ih =>
    unfold classRanges at h
    split at h
    · simp only [Except.ok.injEq, Prod.mk.injEq] at h
      simp [h.2]
    · have shorter : rest.length < tail.length := by
        split at h
        · exact ih h
        · split at h
          · split at h
            · simp at h
            · exact ih h
          · exact ih h
      exact Nat.lt_succ_of_lt shorter

/-- The ranges of bytes that a range of characters stands for: a range from the last byte of the first
character to the first byte of the last one, and every other byte of both by itself. -/
def byteRanges (range : Char × Char) : List (UInt8 × UInt8) :=
  let low := charBytes range.1
  if range.1 = range.2 then low.map fun b => (b, b)
  else
    match low.getLast?, charBytes range.2 with
    | some last, head :: rest =>
      low.dropLast.map (fun b => (b, b)) ++ (last, head) :: rest.map fun b => (b, b)
    | _, _ => []

/-- The marks that negate a class. -/
def negates (c : Char) : Bool := c = '!' || c = '^'

/-- The text of a class without the mark that negates it. -/
def members (cs : List Char) : List Char :=
  match cs with
  | c :: rest => if negates c then rest else cs
  | [] => []

/-- The class behind an opening bracket, and the text after it. -/
def classToken (cs : List Char) : Except Fault (Token × List Char) :=
  match classRanges true false [] (members cs) with
  | .ok (ranges, rest) =>
    .ok (.oneOf (cs.head?.any negates) (ranges.reverse.flatMap byteRanges), rest)
  | .error fault => .error fault

theorem length_classToken {cs rest : List Char} {token : Token} (h : classToken cs = .ok (token, rest)) :
    rest.length < cs.length := by
  have members_le : (members cs).length ≤ cs.length := by
    unfold members
    split
    · split <;> simp
    · simp
  unfold classToken at h
  split at h
  · next found =>
    have shorter := length_classRanges found
    simp only [Except.ok.injEq, Prod.mk.injEq] at h
    rw [← h.2]
    omega
  · simp at h

/-! ## Patterns -/

/-- An alternative that is still open: the alternatives before it and its own tokens, both with the
last one first. -/
structure Branch where
  finished : List Pattern
  tokens : List Token

/-- What has been read: the branch at the end and the branches around it, the innermost first. -/
structure Reading where
  current : Branch
  around : List Branch

namespace Reading

def push (r : Reading) (token : Token) : Reading :=
  { r with current := { r.current with tokens := token :: r.current.tokens } }

/-- Whether the end of the text read so far is inside braces. -/
def isInside (r : Reading) : Bool := !r.around.isEmpty

/-- Opens braces. -/
def openBrace (r : Reading) : Reading := ⟨⟨[], []⟩, r.current :: r.around⟩

/-- Ends an alternative. -/
def nextBranch (r : Reading) : Reading :=
  { r with current := ⟨r.current.tokens.reverse :: r.current.finished, []⟩ }

/-- Whether an alternative has no effect: it holds nothing, or only braces without alternatives. -/
def isBlank (pattern : Pattern) : Bool :=
  pattern.all fun
    | .anyOf [] => true
    | _ => false

/-- Closes braces; alternatives that have no effect are left out. -/
def closeBrace (r : Reading) : Except Fault Reading :=
  match r.around with
  | [] => .error .unopenedAlternatives
  | outer :: around =>
    let branches := (r.nextBranch.current.finished.reverse).filter (!isBlank ·)
    .ok (push ⟨outer, around⟩ (.anyOf branches))

/-- Replaces the token in front of a `**`, which belongs to it, unless it is such a mark itself. -/
def spanDirectories (r : Reading) (token : Token) : Reading :=
  match r.current.tokens with
  | .leading :: _ => r
  | .trailing :: _ => r
  | _ :: rest => { r with current := { r.current with tokens := token :: rest } }
  | [] => r

/-- Reads a `**` that stands after the character `before`; also answers the text after it. -/
def doubleStar (r : Reading) (before : Option Char) (rest : List Char) : Reading × List Char :=
  let plain := ((r.push .anyBytes).push .anyBytes, rest)
  if r.current.tokens.isEmpty then
    match rest with
    | [] => (r.push .leading, [])
    | '/' :: more => (r.push .leading, more)
    | _ => plain
  else if before = some '/' || (r.isInside && (before = some ',' || before = some '\x7b')) then
    match rest with
    | [] => (r.spanDirectories .trailing, [])
    | '/' :: more => (r.spanDirectories .between, more)
    | c :: _ =>
      if r.isInside && (c = ',' || c = '\x7d') then (r.spanDirectories .trailing, rest) else plain
  else plain

theorem length_doubleStar (r : Reading) (before : Option Char) (rest : List Char) :
    (r.doubleStar before rest).2.length ≤ rest.length := by
  unfold doubleStar
  grind

end Reading

/-- Reads the rest of a pattern, where `before` is the character in front of it. -/
def readTokens (r : Reading) (before : Option Char) : List Char → Except Fault Reading
  | [] => .ok r
  | '?' :: rest => readTokens (r.push .anyByte) (some '?') rest
  | '*' :: '*' :: rest =>
    have := r.length_doubleStar before rest
    let read := r.doubleStar before rest
    readTokens read.1 (some (if read.2.length < rest.length then '/' else '*')) read.2
  | '*' :: rest => readTokens (r.push .anyBytes) (some '*') rest
  | '[' :: rest =>
    match read : classToken rest with
    | .ok (token, left) =>
      have := length_classToken read
      readTokens (r.push token) (some ']') left
    | .error fault => .error fault
  | '\x7b' :: rest => readTokens r.openBrace (some '\x7b') rest
  | '\x7d' :: rest =>
    match r.closeBrace with
    | .ok closed => readTokens closed (some '\x7d') rest
    | .error fault => .error fault
  | ',' :: rest =>
    readTokens (if r.isInside then r.nextBranch else r.push (.literal (charBytes ','))) (some ',') rest
  | '\\' :: c :: rest => readTokens (r.push (.literal (charBytes c))) (some c) rest
  | ['\\'] => .error .danglingEscape
  | c :: rest => readTokens (r.push (.literal (charBytes c))) (some c) rest
termination_by cs => cs.length

/-- The pattern that a text spells. -/
def parse (text : String) : Except Fault Pattern := do
  let r ← readTokens ⟨⟨[], []⟩, []⟩ none text.toList
  if r.isInside then .error .unclosedAlternatives else return r.current.tokens.reverse

end SolidityBuild.Glob
