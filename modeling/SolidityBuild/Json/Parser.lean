import SolidityBuild.Json.Basic
import SolidityBuild.Text.Scan

/-!
# JSON texts: reading

A strict reader: no comments, no trailing commas, nothing after the value. White space is the space,
the tab and the two line breaks. Nesting is limited, and surrogate escapes come in pairs.

Every reader takes the characters that are left and answers what it read with a shorter rest, which is
why reading ends.
-/

namespace SolidityBuild.Json

open Text (Rest Recogniser shorter?)

/-- The deepest nesting of arrays and objects. -/
def nestingLimit : Nat := 127

/-- White space between tokens. -/
def isSpace (c : Char) : Bool := c = ' ' || c = '\t' || c = '\n' || c = '\r'

def skipSpace (cs : List Char) : List Char := cs.dropWhile isSpace

theorem length_skipSpace (cs : List Char) : (skipSpace cs).length ≤ cs.length :=
  (List.dropWhile_suffix _).length_le

/-! ## Strings -/

/-- The value of a hexadecimal digit. -/
def hexDigit? (c : Char) : Option Nat :=
  if '0' ≤ c && c ≤ '9' then some (c.toNat - '0'.toNat)
  else if 'a' ≤ c && c ≤ 'f' then some (c.toNat - 'a'.toNat + 10)
  else if 'A' ≤ c && c ≤ 'F' then some (c.toNat - 'A'.toNat + 10)
  else none

/-- The value of four hexadecimal digits. -/
def hexUnit? (a b c d : Char) : Option Nat := do
  return (((← hexDigit? a) * 16 + (← hexDigit? b)) * 16 + (← hexDigit? c)) * 16 + (← hexDigit? d)

/-- The character of an escape of one letter. -/
def letterEscape? : Char → Option Char
  | '"' => some '"'
  | '\\' => some '\\'
  | '/' => some '/'
  | 'b' => some '\x08'
  | 'f' => some '\x0c'
  | 'n' => some '\n'
  | 'r' => some '\r'
  | 't' => some '\t'
  | _ => none

/-- Whether a 16-bit unit is the first or the second half of a pair. -/
def isHighSurrogate (unit : Nat) : Bool := 0xd800 ≤ unit && unit < 0xdc00

def isLowSurrogate (unit : Nat) : Bool := 0xdc00 ≤ unit && unit < 0xe000

/-- The character that a pair of surrogates stands for. -/
def pairChar (high low : Nat) : Char :=
  Char.ofNat (0x10000 + (high - 0xd800) * 0x400 + (low - 0xdc00))

/-- The characters of a string up to its closing quotation mark, and the text after it. -/
def stringBody : List Char → Option (List Char × List Char)
  | [] => none
  | '"' :: rest => some ([], rest)
  | '\\' :: 'u' :: a :: b :: c :: d :: rest =>
    match hexUnit? a b c d with
    | none => none
    | some unit =>
      if isLowSurrogate unit then none
      else if isHighSurrogate unit then
        match rest with
        | '\\' :: 'u' :: a :: b :: c :: d :: rest =>
          match hexUnit? a b c d with
          | none => none
          | some low =>
            if isLowSurrogate low then
              (stringBody rest).map fun (cs, after) => (pairChar unit low :: cs, after)
            else none
        | _ => none
      else (stringBody rest).map fun (cs, after) => (Char.ofNat unit :: cs, after)
  | '\\' :: c :: rest =>
    match letterEscape? c with
    | none => none
    | some escaped => (stringBody rest).map fun (cs, after) => (escaped :: cs, after)
  | c :: rest =>
    if c = '\\' || c.toNat < 0x20 then none
    else (stringBody rest).map fun (cs, after) => (c :: cs, after)

/-- The content of a quoted text that is all of `cs`. -/
def unquote? (cs : List Char) : Option String :=
  match cs with
  | '"' :: rest =>
    match stringBody rest with
    | some (text, []) => some (String.ofList text)
    | _ => none
  | _ => none

/-! ## Numbers -/

/-- Digits read so far: their value, and the power of ten by which it has to be multiplied because of
digits that were left out or stand after the point. -/
structure Digits where
  value : Nat
  exponent : Int

/-- The greatest value that digits are collected to. -/
def digitLimit : Nat := Nat.pow 2 64

/-- The digits at the front of a text, and the text after them. -/
def splitDigits (cs : List Char) : List Char × List Char := (cs.takeWhile Char.isDigit, cs.dropWhile Char.isDigit)

def digitValue (c : Char) : Nat := c.toNat - '0'.toNat

/-- Collects the digits before the point. From the first digit on that does not fit any more, digits
only raise the exponent. -/
def wholeDigits : Digits → List Char → Digits
  | collected, [] => collected
  | collected, c :: rest =>
    let value := collected.value * 10 + digitValue c
    if value < digitLimit then wholeDigits { collected with value } rest
    else { collected with exponent := collected.exponent + (rest.length + 1) }

/-- Collects the digits after the point. From the first digit on that does not fit any more, digits
are left out. -/
def fractionDigits : Digits → List Char → Digits
  | collected, [] => collected
  | collected, c :: rest =>
    let value := collected.value * 10 + digitValue c
    if value < digitLimit then fractionDigits ⟨value, collected.exponent - 1⟩ rest else collected

/-- An exponent part: nothing there, a malformed one, or its value; and the text after it. -/
def exponentPart (cs : List Char) : Option (Option Int × List Char) :=
  match cs with
  | c :: rest =>
    if c = 'e' || c = 'E' then
      let (negative, rest) := match rest with
        | '+' :: more => (false, more)
        | '-' :: more => (true, more)
        | more => (false, more)
      let (digits, after) := splitDigits rest
      if digits.isEmpty then none
      else
        let n : Int := (digits.foldl (fun n c => n * 10 + digitValue c) 0 : Nat)
        some (some (if negative then -n else n), after)
    else some (none, cs)
  | [] => some (none, [])

/-- The number at the front of a text, without its sign. -/
def unsigned (negative : Bool) (cs : List Char) : Option (Json × List Char) := do
  let (whole, afterWhole) := splitDigits cs
  match whole with
  | [] => none
  | '0' :: _ :: _ => none
  | _ =>
    let digits := wholeDigits ⟨0, 0⟩ whole
    let (fraction, afterFraction) ← match afterWhole with
      | '.' :: rest =>
        let (fraction, after) := splitDigits rest
        if fraction.isEmpty then none else some (some fraction, after)
      | _ => some (none, afterWhole)
    let (exponent, rest) ← exponentPart afterFraction
    let signed : Int := if negative then -digits.value else digits.value
    if fraction.isNone && exponent.isNone && digits.exponent = 0 && !(negative && digits.value = 0) &&
        integerRange.1 ≤ signed && signed ≤ integerRange.2 then
      return (.integer signed, rest)
    let digits := fractionDigits digits (fraction.getD [])
    let value ← Binary64.ofLiteral digits.value (digits.exponent + exponent.getD 0)
    return (.double (value.withSign negative), rest)

/-- The number at the front of a text. -/
def number (cs : List Char) : Option (Json × List Char) :=
  match cs with
  | '-' :: rest => unsigned true rest
  | _ => unsigned false cs

/-! ## Values -/

/-- A word with a meaning at the front of a text. -/
def word {α : Type} (text : String) (meaning : α) (cs : List Char) : Option (α × Rest cs) :=
  (Text.word text.toList cs).map fun (_, rest) => (meaning, rest)

/-- A string at the front of a text. -/
def stringToken (cs : List Char) : Option (String × Rest cs) :=
  match cs with
  | '"' :: rest =>
    match stringBody rest with
    | some (text, after) => shorter? (String.ofList text, after)
    | none => none
  | _ => none

/-- A value that is neither an array nor an object. -/
def scalar (cs : List Char) : Option (Json × Rest cs) :=
  match cs.head? with
  | some '"' => (stringToken cs).map fun (text, rest) => (Json.string text, rest)
  | some 'n' => word "null" Json.null cs
  | some 't' => word "true" (Json.bool true) cs
  | some 'f' => word "false" (Json.bool false) cs
  | _ => (number cs).bind shorter?

/-- One or more items with commas between them, up to the closing bracket. -/
def separated {α : Type} (item : Recogniser α) (closing : Char)
    (cs : List Char) : Option (List α × Rest cs) :=
  match item cs with
  | none => none
  | some (first, ⟨afterFirst, shorter⟩) =>
    match hs : skipSpace afterFirst with
    | ',' :: rest =>
      have : rest.length < cs.length := by
        have := length_skipSpace afterFirst
        rw [hs] at this
        simp only [List.length_cons] at this
        omega
      match separated item closing rest with
      | none => none
      | some (others, ⟨after, h⟩) => some (first :: others, ⟨after, by omega⟩)
    | c :: rest =>
      if c = closing then
        some ([first], ⟨rest, by
          have := length_skipSpace afterFirst
          rw [hs] at this
          simp only [List.length_cons] at this
          omega⟩)
      else none
    | [] => none
termination_by cs.length

/-- A member of an object: its key, a colon and its value, with white space anywhere between. -/
def member {α : Type} (value : Recogniser α) : Recogniser (String × α) := fun cs => do
  let (key, afterKey) ← stringToken (skipSpace cs)
  match skipSpace afterKey.1 with
  | ':' :: rest =>
    let (item, after) ← value rest
    shorter? ((key, item), after.1)
  | _ => none

/-- The value at the front of a text, after any white space; arrays and objects may nest as deep as
`depth`. -/
def value : (depth : Nat) → (cs : List Char) → Option (Json × Rest cs)
  | depth, cs =>
    match skipSpace cs with
    | '[' :: rest =>
      match depth with
      | 0 => none
      | depth + 1 =>
        match skipSpace rest with
        | ']' :: after => shorter? (.array [], after)
        | _ => (separated (value depth) ']' rest).bind fun (items, after) =>
          shorter? (.array items, after.1)
    | '\x7b' :: rest =>
      match depth with
      | 0 => none
      | depth + 1 =>
        match skipSpace rest with
        | '\x7d' :: after => shorter? (.object [], after)
        | _ => (separated (member (value depth)) '\x7d' rest).bind fun (members, after) =>
          shorter? (.object members, after.1)
    | start => (scalar start).bind fun (read, after) => shorter? (read, after.1)

/-- The value that a whole text stands for, with the members of objects as they are written. -/
def parseAsWritten? (text : String) : Option Json :=
  match value nestingLimit text.toList with
  | some (read, rest) => if (skipSpace rest.1).isEmpty then some read else none
  | none => none

/-- The value that a whole text stands for. -/
def parse? (text : String) : Option Json := (parseAsWritten? text).map canonical

end SolidityBuild.Json
